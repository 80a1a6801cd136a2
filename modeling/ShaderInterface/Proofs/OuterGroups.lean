import ShaderInterface.Proofs.Declared
import ShaderInterface.Proofs.Retexting
import ShaderInterface.Proofs.Rewriting

/-!
# Outer groups follow the rules of the mesh group

A group in front of the mesh group is made of uniform lines that never were in a source. The same
lines can be written as a source, `uniformSource`, and linked. `Linker.outerGroup_link` says that
one succeeds if the other does, and that the resources and the code differ in the number and the
name of the group and nowhere else: both codes are fillings of one template,
`ResourceGroup.template`.
-/

namespace ShaderInterface

open Outcome (bimap)
open Source (Keyword Lexeme Outline Stripped)

/-! ## Sources of uniform lines -/

/-- A text without the blanks at its ends. -/
def Text.trimmed (s : String) : String :=
  String.ofList (trim s.toList)

/-- A text keeps its words without the blanks at its ends. -/
theorem Text.keepsWords_trimmed : KeepsWords trimmed := by
  intro s
  rw [trimmed, words_trim, String.ofList_toList]

namespace Source

/-- The source that declares the given uniform lines. -/
def uniformSource (lines : List String) : String :=
  String.join (lines.map fun line => "uniform " ++ line ++ ";\n")

/-- The lexemes of a uniform line. -/
def uniformLexemes (line : String) : List Lexeme :=
  [.declaration .uniform (' ' :: line.toList) [';'], .newline]

/-- The lexemes of uniform lines make up their source. -/
theorem flatMap_text_uniformLexemes (lines : List String) :
    (lines.flatMap uniformLexemes).flatMap Lexeme.text = (uniformSource lines).toList := by
  rw [uniformSource, String.toList_join, List.flatMap_map, List.flatMap_assoc]
  refine List.flatMap_congr fun line _ => ?_
  simp [uniformLexemes, Lexeme.text, Keyword.word]

/-- Uniform lines fit one behind the other. -/
theorem everywhere_fits_uniformLexemes {lines : List String}
    (hlines : ∀ line ∈ lines, ';' ∉ line.toList) {before : List Lexeme}
    (hparens : openParens before = 0) (hstatement : OpensStatement before) :
    Everywhere Fits before [] (lines.flatMap uniformLexemes) := by
  induction lines generalizing before with
  | nil => trivial
  | cons line lines ih =>
    rw [List.forall_mem_cons] at hlines
    have hfits : Fits before (['\n'] ++ ((lines.flatMap uniformLexemes).flatMap Lexeme.text ++ []))
        (.declaration .uniform (' ' :: line.toList) [';']) := by
      refine ⟨⟨⟨' ', rfl, by simp⟩, hparens, hstatement⟩, ?_, by simp, by simp, ?_⟩
      · simpa using hlines.1
      · intro c hc
        obtain rfl := Option.mem_some.1 hc
        decide
    rw [List.flatMap_cons, uniformLexemes, everywhere_append]
    refine ⟨⟨hfits, trivial, trivial⟩, ?_⟩
    -- behind the line a statement begins anew
    rw [List.append_cons]
    refine ih hlines.2 ?_ ?_
    · rw [openParens_concat, openParens_concat, hparens]
      rfl
    · exact (opensStatement_concat_trivia rfl).2 (.inl rfl)

/-- The source of uniform lines is read line by line. -/
theorem lexemes_uniformSource {lines : List String} (hlines : ∀ line ∈ lines, ';' ∉ line.toList) :
    lexemes .start (uniformSource lines).toList = lines.flatMap uniformLexemes := by
  refine (isSplit_iff.1 (isSplit_iff_everywhere.2 ⟨flatMap_text_uniformLexemes lines, ?_⟩)).symm
  exact everywhere_fits_uniformLexemes hlines rfl opensStatement_nil

/-- The declaration of a uniform line. -/
def uniformCut (line : String) : Cut :=
  ⟨[], .uniform, ' ' :: line.toList, [';']⟩

/-- A uniform line declares itself, without the blanks at its ends. -/
theorem payload_uniformCut (line : String) : (uniformCut line).payload = Text.trimmed line := by
  have hspace : Text.trimStart (' ' :: line.toList) = Text.trimStart line.toList :=
    List.dropWhile_cons_of_pos rfl
  rw [Cut.payload, uniformCut, Text.trim, hspace]
  rfl

/-- Between the declarations of uniform lines stand newlines. -/
theorem ofLexemes_uniformLexemes (lines : List String) :
    Outline.ofLexemes (lines.flatMap uniformLexemes) =
      ⟨[], lines.map fun line => (uniformCut line, ['\n'])⟩ := by
  induction lines with
  | nil => rfl
  | cons line lines ih =>
    rw [List.flatMap_cons, uniformLexemes, List.cons_append, List.cons_append, List.nil_append,
      Outline.ofLexemes_cons, Outline.ofLexemes_cons, ih]
    rfl

/-- All uniform lines have an end. -/
theorem terminated_uniformLexemes (lines : List String) :
    Terminated (lines.flatMap uniformLexemes) := by
  intro keyword body hmem
  obtain ⟨line, -, hline⟩ := List.mem_flatMap.1 hmem
  simp [uniformLexemes] at hline

/-- What is left of uniform lines, of which there may be none. -/
def uniformStripped (lines : List String) : Stripped where
  head := ""
  tail := String.ofList ('\n' :: lines.map fun _ => '\n')
  declarations := lines.map fun line => (.uniform, Text.trimmed line)

/-- Of a source of uniform lines nothing is left but newlines. -/
theorem ofSource_uniformSource {lines : List String}
    (hlines : ∀ line ∈ lines, ';' ∉ line.toList)
    (hsize : (uniformSource lines).utf8ByteSize ≤ maxSourceBytes) (stage : Stage) :
    Stripped.ofSource stage (uniformSource lines) = .ok (uniformStripped lines) := by
  have houtline : Outline.ofSource stage (uniformSource lines) =
      .ok ⟨[], lines.map fun line => (uniformCut line, ['\n'])⟩ := by
    rw [Outline.ofSource, lexemes_uniformSource hlines,
      Outline.unterminated?_eq_none (terminated_uniformLexemes lines), ofLexemes_uniformLexemes]
  have hgaps : (lines.map fun line => (uniformCut line, ['\n'])).flatMap (·.2) =
      lines.map fun _ => '\n' := by
    rw [List.flatMap_map, List.map_eq_flatMap]
  have hdeclarations : (lines.map fun line => (uniformCut line, ['\n'])).map
      (fun next => (next.1.keyword, next.1.payload)) =
        lines.map fun line => (.uniform, Text.trimmed line) := by
    rw [List.map_map]
    exact List.map_congr_left fun line _ =>
      congrArg (Prod.mk Keyword.uniform) (payload_uniformCut line)
  rw [Stripped.ofSource, if_neg (Nat.not_lt.2 hsize), houtline, uniformStripped, ← hgaps,
    ← hdeclarations]
  cases lines with
  | nil => rfl
  | cons line lines => rfl

/-- Uniform lines declare uniforms. -/
theorem payloads_uniformStripped (lines : List String) :
    (uniformStripped lines).payloads .uniform = lines.map Text.trimmed := by
  simp [Stripped.payloads, uniformStripped, List.filter_map, Function.comp_def]

/-- Uniform lines declare nothing but uniforms. -/
theorem payloads_uniformStripped_of_ne {keyword : Keyword} (h : keyword ≠ .uniform)
    (lines : List String) : (uniformStripped lines).payloads keyword = [] := by
  simp [Stripped.payloads, uniformStripped, List.filter_map, Function.comp_def, h.symm]

end Source

/-! ## The code of a group as a template -/

/-- A piece of the code of a group: text, or a hole for the number or the name of the group. -/
inductive CodePiece where
  | text (code : String)
  | number
  | name
deriving DecidableEq, Repr

namespace CodePiece

/-- The code with its hole filled. -/
def fill (group : Nat) (groupName : String) : CodePiece → String
  | text code => code
  | number => toString group
  | name => groupName

/-- The pieces with their holes filled, in order. -/
def fillAll (group : Nat) (groupName : String) (pieces : List CodePiece) : String :=
  String.join (pieces.map (fill group groupName))

/-- Without pieces there is no code. -/
@[simp]
theorem fillAll_nil (group : Nat) (groupName : String) : fillAll group groupName [] = "" := rfl

/-- The first piece is filled and then the others. -/
@[simp]
theorem fillAll_cons (group : Nat) (groupName : String) (piece : CodePiece)
    (pieces : List CodePiece) :
    fillAll group groupName (piece :: pieces) =
      piece.fill group groupName ++ fillAll group groupName pieces := by
  rw [fillAll, List.map_cons, String.join_cons]
  rfl

/-- Pieces in a row are filled one after the other. -/
theorem fillAll_append (group : Nat) (groupName : String) (pieces pieces' : List CodePiece) :
    fillAll group groupName (pieces ++ pieces') =
      fillAll group groupName pieces ++ fillAll group groupName pieces' := by
  rw [fillAll, List.map_append, String.join_append]
  rfl

end CodePiece

/-- The line that declares a resource at a slot of any group. -/
def Texture.resourceTemplate (slot : Nat) (typeName name : String) : List CodePiece :=
  [.text "layout(set = ", .number,
    .text (", binding = " ++ toString slot ++ ") uniform " ++ typeName ++ " " ++ name ++ ";\n")]

/-- The lines that declare a texture and its sampler in any group. -/
def Texture.template (t : Texture) : List CodePiece :=
  resourceTemplate t.textureSlot (t.sampleType.textureStem ++ t.dimension.typeName) t.name
    ++ resourceTemplate t.samplerSlot t.sampleType.samplerType t.samplerName

/-- The block that declares a buffer in any group. -/
def BufferLayout.template (layout : BufferLayout) : List CodePiece :=
  [.text "layout(set = ", .number,
    .text (", binding = " ++ toString BindingTable.bufferSlot ++ ", std140) uniform ub_"), .name,
    .text (" \x7b\n" ++ String.join (layout.fields.map fieldLine) ++ "\x7d;\n")]

/-- The code of a group with holes for its number and its name. -/
def ResourceGroup.template (g : ResourceGroup) : List CodePiece :=
  (g.layout.map BufferLayout.template).getD [] ++ g.bindings.textures.flatMap Texture.template

/-- The lines of a texture are those of its template. -/
theorem Texture.declaration_eq_fillAll (group : Nat) (groupName : String) (t : Texture) :
    t.declaration group = CodePiece.fillAll group groupName t.template := by
  unfold declaration template resourceLine resourceTemplate
  simp only [List.cons_append, List.nil_append, CodePiece.fillAll_cons, CodePiece.fillAll_nil,
    CodePiece.fill, String.append_assoc, String.append_empty]

/-- The block of a buffer is that of its template. -/
theorem BufferLayout.declaration_eq_fillAll (group : Nat) (groupName : String)
    (layout : BufferLayout) :
    layout.declaration group BindingTable.bufferSlot groupName =
      CodePiece.fillAll group groupName layout.template := by
  unfold declaration template
  simp only [CodePiece.fillAll_cons, CodePiece.fillAll_nil, CodePiece.fill, String.append_assoc,
    String.append_empty]

/-- The code of a group is its template, filled with the number and the name of the group. -/
theorem ResourceGroup.code_eq_fillAll (g : ResourceGroup) :
    g.code = CodePiece.fillAll g.group g.name g.template := by
  have htextures : g.bindings.textureDeclarations =
      CodePiece.fillAll g.group g.name (g.bindings.textures.flatMap Texture.template) := by
    rw [BindingTable.textureDeclarations]
    induction g.bindings.textures with
    | nil => rfl
    | cons t ts ih =>
      rw [List.map_cons, String.join_cons, ih, List.flatMap_cons, CodePiece.fillAll_append,
        ← Texture.declaration_eq_fillAll]
      rfl
  have hbuffer : g.bufferCode =
      CodePiece.fillAll g.group g.name ((g.layout.map BufferLayout.template).getD []) := by
    rw [bufferCode]
    cases g.layout with
    | none => rfl
    | some layout => exact layout.declaration_eq_fillAll g.group g.name
  rw [code, template, CodePiece.fillAll_append, htextures, hbuffer]

/-! ## Code that ends its lines -/

namespace Block

/-- Code without an unfinished line at its end. -/
def Closed (code : String) : Prop :=
  code = "" ∨ code.toList.getLast? = some '\n'

/-- Code that ends its last line stays as it is. -/
theorem endLine_of_closed {code : String} (h : Closed code) : endLine code = code := by
  rw [endLine, if_pos]
  rcases h with rfl | h
  · rfl
  · rw [h]
    exact Bool.or_true _

/-- Code that ends with a newline ends its last line. -/
theorem closed_append {code' : String} (h : code'.toList.getLast? = some '\n') (code : String) :
    Closed (code ++ code') := by
  refine .inr ?_
  rw [String.toList_append, List.getLast?_append, h, Option.some_or]

/-- Sections that end their last lines stand one after the other. -/
theorem ofSections_of_closed {sections : List String} (h : ∀ code ∈ sections, Closed code) :
    ofSections sections = String.join sections := by
  rw [ofSections, List.map_congr_left fun code hcode => endLine_of_closed (h code hcode),
    List.map_id']

/-- Code in a row ends its last line if both parts do. -/
theorem Closed.append {code code' : String} (h : Closed code) (h' : Closed code') :
    Closed (code ++ code') := by
  rcases h' with rfl | h'
  · rwa [String.append_empty]
  · exact closed_append h' code

/-- Any number of pieces end their last line if each does. -/
theorem closed_join {codes : List String} (h : ∀ code ∈ codes, Closed code) :
    Closed (String.join codes) := by
  induction codes with
  | nil => exact .inl rfl
  | cons code codes ih =>
    rw [List.forall_mem_cons] at h
    rw [String.join_cons]
    exact h.1.append (ih h.2)

end Block

/-- The line of a resource ends. -/
theorem Texture.closed_resourceLine (group slot : Nat) (typeName name : String) :
    Block.Closed (resourceLine group slot typeName name) := by
  unfold resourceLine
  exact Block.closed_append rfl _

/-- The code of a group ends its last line. -/
theorem ResourceGroup.closed_code (g : ResourceGroup) : Block.Closed g.code := by
  refine Block.Closed.append ?_ (Block.closed_join ?_)
  · rw [bufferCode]
    cases g.layout with
    | none => exact .inl rfl
    | some layout =>
      dsimp only
      unfold BufferLayout.declaration
      exact Block.closed_append rfl _
  · intro code hcode
    obtain ⟨t, -, rfl⟩ := List.mem_map.1 hcode
    exact (Texture.closed_resourceLine ..).append (Texture.closed_resourceLine ..)

/-! ## The group of uniform lines -/

namespace Linker

variable (linker : Linker)

/-- The resources that uniform lines become in the group of a number and a name. -/
def groupOf (group : Nat) (name : String) (lines : List String) : Except LinkError ResourceGroup :=
  Uniform.merge (lines.map (Stage.vertex, ·)) >>=
    ResourceGroup.ofUniforms linker.tables linker.options.sampling group name

/-- An outer group is made of its lines under its own name. -/
theorem outerGroup_eq {group : Nat} {name : String}
    (h : linker.options.groups.outer[group]? = some name) (lines : List String) :
    linker.outerGroup group lines = linker.groupOf group name lines := by
  unfold outerGroup
  rw [h]
  rfl

/-- Lines without the blanks at their ends become the same resources. -/
theorem groupOf_trimmed (group : Nat) (name : String) (lines : List String) :
    linker.groupOf group name (lines.map Text.trimmed) =
      bimap id (LinkError.mapTexts Text.trimmed) (linker.groupOf group name lines) := by
  have hlines : (lines.map Text.trimmed).map (Stage.vertex, ·) =
      (lines.map (Stage.vertex, ·)).map fun line => (line.1, Text.trimmed line.2) := by
    rw [List.map_map, List.map_map]
    rfl
  rw [groupOf, groupOf, hlines, Uniform.merge_retext Text.keepsWords_trimmed]
  exact Outcome.bind_bimap (ResourceGroup.ofUniforms_retext Text.trimmed) _

/-- Lines become the same resources in each group. -/
theorem groupOf_moved (group group' : Nat) (name name' : String) (lines : List String) :
    linker.groupOf group' name' lines =
      bimap (ResourceGroup.moved group' name') id (linker.groupOf group name lines) := by
  rw [groupOf, groupOf]
  cases Uniform.merge (lines.map (Stage.vertex, ·)) with
  | error cause => rfl
  | ok us => exact ResourceGroup.ofUniforms_moved group' name' us

/-! ## The link of uniform lines -/

/-- The pair of shaders of which the vertex stage declares the given uniform lines, and neither
stage declares anything else. -/
def uniformRequest (lines : List String) (semantics : SemanticMap) (formats : FormatMap) :
    LinkRequest where
  vertex := Source.uniformSource lines
  fragment := ""
  semantics := semantics
  formats := formats
  scopes := []

/-- Where nothing but uniforms is declared, nothing but the mesh group is made. -/
theorem assign_uniformStripped (semantics : SemanticMap) (formats : FormatMap)
    (lines : List String) :
    linker.assign semantics formats [] (Source.uniformStripped lines).payloads
        (Source.uniformStripped []).payloads =
      (linker.groupOf linker.options.groups.meshGroup linker.options.groups.mesh
        (lines.map Text.trimmed)).map fun mesh => ⟨[], ⟨[], []⟩, [], mesh⟩ := by
  have hfragment : (Source.uniformStripped []).payloads = fun _ => [] := rfl
  have huniforms : uniforms (Source.uniformStripped lines).payloads (fun _ => []) =
      Uniform.merge ((lines.map Text.trimmed).map (Stage.vertex, ·)) := by
    rw [uniforms, Source.payloads_uniformStripped, List.map_nil, List.append_nil]
  have hfilter : ∀ us : List Uniform,
      us.filter (fun u => (Scope.provider? [] u).isNone) = us :=
    fun us => List.filter_eq_self.2 fun _ _ => rfl
  have hnone : ∀ keyword ≠ Keyword.uniform, (Source.uniformStripped lines).payloads keyword = [] :=
    fun keyword h => Source.payloads_uniformStripped_of_ne h lines
  unfold assign refuse
  rw [hfragment, huniforms, hnone .output (by decide), hnone .attrib (by decide),
    hnone .varying (by decide), groupOf]
  show Uniform.merge _ >>= _ = _
  cases Uniform.merge ((lines.map Text.trimmed).map (Stage.vertex, ·)) with
  | error cause => rfl
  | ok us =>
    dsimp only [bind, Except.bind]
    rw [hfilter]
    cases ResourceGroup.ofUniforms linker.tables linker.options.sampling _ _ us with
    | error cause => rfl
    | ok mesh => rfl

/-- The pair that uniform lines are linked to. -/
def uniformPair (lines : List String) (mesh : ResourceGroup) : LinkedPair :=
  pairOf [] (Source.uniformStripped lines) (Source.uniformStripped [])
    ⟨[], ⟨[], []⟩, [], mesh⟩

/-- Uniform lines are linked if they become a mesh group. -/
theorem link_uniformRequest {lines : List String} (hlines : ∀ line ∈ lines, ';' ∉ line.toList)
    (hsize : (Source.uniformSource lines).utf8ByteSize ≤ Source.maxSourceBytes)
    (semantics : SemanticMap) (formats : FormatMap) :
    linker.link (uniformRequest lines semantics formats) =
      (linker.groupOf linker.options.groups.meshGroup linker.options.groups.mesh
        (lines.map Text.trimmed)).map (uniformPair lines) := by
  have hvertex := Source.ofSource_uniformSource hlines hsize .vertex
  have hfragment : Stripped.ofSource .fragment "" = .ok (Source.uniformStripped []) :=
    @Source.ofSource_uniformSource [] nofun (Nat.zero_le _) .fragment
  have hscopes : ¬ ([] : List Scope).length ≥ linker.options.groups.count :=
    Nat.not_le.2 (Nat.succ_pos _)
  rw [link_eq, uniformRequest, if_neg hscopes, hvertex, hfragment]
  dsimp only [bind, Except.bind]
  rw [assign_uniformStripped]
  cases linker.groupOf _ _ (lines.map Text.trimmed) with
  | error cause => rfl
  | ok mesh => rfl

/-- The block of a mesh group alone is its code. -/
theorem ofSections_mesh (mesh : ResourceGroup) :
    Block.ofSections ["", "", mesh.code] = mesh.code := by
  have hempty : Block.Closed "" := .inl rfl
  have hclosed : ∀ code ∈ ["", "", mesh.code], Block.Closed code := by
    simp [hempty, mesh.closed_code]
  rw [Block.ofSections_of_closed hclosed]
  simp only [String.join_cons, String.join_nil, String.empty_append, String.append_empty]

/-- The number and the name of a group are those under which it was made. -/
theorem group_and_name_of_groupOf {group : Nat} {name : String} {lines : List String}
    {g : ResourceGroup} (h : linker.groupOf group name lines = .ok g) :
    g.group = group ∧ g.name = name := by
  have hmoved := linker.groupOf_moved group group name name lines
  rw [h] at hmoved
  have hg := Except.ok.inj hmoved
  exact ⟨congrArg ResourceGroup.group hg, congrArg ResourceGroup.name hg⟩

/-- An outer group and the pair that its lines are linked to have the same resources. -/
structure Mirrors (number : Nat) (lines : List String) (scope : ResourceGroup)
    (pair : LinkedPair) : Prop where
  /-- The fields of the buffer are those of the mesh buffer. -/
  layout : scope.layout = pair.assignment.mesh.layout
  /-- The textures are those of the mesh. -/
  textures : scope.bindings.textures = pair.assignment.mesh.bindings.textures
  /-- The buffer is bound like that of the mesh, under a name of its own. -/
  buffer : scope.bindings.buffer = pair.assignment.mesh.bindings.buffer.map fun buffer =>
    { buffer with name := "ub_" ++ scope.name }
  /-- The group has the number and the name that the linker gives it. -/
  group : scope.group = number
  name : linker.options.groups.name? number = some scope.name
  /-- The code of the group is the code of the mesh with another number and name. -/
  code : scope.code = CodePiece.fillAll number scope.name pair.assignment.mesh.template
  /-- The fragment source becomes the code of the mesh. -/
  fragment : pair.fragment = CodePiece.fillAll linker.options.groups.meshGroup
    linker.options.groups.mesh pair.assignment.mesh.template ++ "\n"
  /-- The vertex source becomes the code of the mesh, with the ends of the lines behind it. -/
  vertex : pair.vertex = pair.fragment ++ String.ofList (lines.map fun _ => '\n')

/-- An outer group has the resources of the mesh group that its lines are linked to. -/
theorem mirrors_moved {number : Nat} {name : String} {lines : List String} {mesh : ResourceGroup}
    (hname : linker.options.groups.outer[number]? = some name)
    (hmesh : linker.groupOf linker.options.groups.meshGroup linker.options.groups.mesh lines =
      .ok mesh) :
    linker.Mirrors number lines (mesh.moved number name) (uniformPair lines mesh) := by
  obtain ⟨hgroup, hmeshName⟩ := linker.group_and_name_of_groupOf hmesh
  have hfill : mesh.code = CodePiece.fillAll linker.options.groups.meshGroup
      linker.options.groups.mesh mesh.template := by
    rw [mesh.code_eq_fillAll, hgroup, hmeshName]
  have hfragment : (uniformPair lines mesh).fragment = mesh.code ++ "\n" := by
    show "" ++ Block.ofSections ["", "", mesh.code] ++ "\n" = _
    rw [ofSections_mesh, String.empty_append]
  have hvertex : (uniformPair lines mesh).vertex =
      mesh.code ++ "\n" ++ String.ofList (lines.map fun _ => '\n') := by
    have htail : String.ofList ('\n' :: lines.map fun _ => '\n') =
        "\n" ++ String.ofList (lines.map fun _ => '\n') := by
      rw [← List.singleton_append, String.ofList_append]
    show "" ++ Block.ofSections ["", "", mesh.code] ++ String.ofList ('\n' :: _) = _
    rw [ofSections_mesh, String.empty_append, htail, String.append_assoc]
  have hnames : linker.options.groups.name? number = some name := by
    rw [BindGroups.name?, BindGroups.names, List.getElem?_append_left, hname]
    exact (List.getElem?_eq_some_iff.1 hname).1
  exact {
    layout := rfl
    textures := rfl
    buffer := rfl
    group := rfl
    name := hnames
    code := ResourceGroup.code_eq_fillAll _
    fragment := hfragment.trans (by rw [hfill]; rfl)
    vertex := by rw [hvertex, hfragment] }

/-- A group in front of the mesh group follows the rules of the mesh group. It is made of uniform
lines exactly if the source that declares them can be linked. Then the group and the mesh have the
same buffer and the same textures, and the same code but for the number and the name of the group;
else both have the same cause, but for blanks at the ends of the texts at fault. -/
theorem outerGroup_link {number : Nat} (hnumber : number < linker.options.groups.meshGroup)
    {lines : List String} (hlines : ∀ line ∈ lines, ';' ∉ line.toList)
    (hsize : (Source.uniformSource lines).utf8ByteSize ≤ Source.maxSourceBytes)
    (semantics : SemanticMap) (formats : FormatMap) :
    ((∃ scope, linker.outerGroup number lines = .ok scope) ↔
        ∃ pair, linker.link (uniformRequest lines semantics formats) = .ok pair) ∧
      (∀ scope pair, linker.outerGroup number lines = .ok scope →
        linker.link (uniformRequest lines semantics formats) = .ok pair →
          linker.Mirrors number lines scope pair) ∧
      ∀ cause cause', linker.outerGroup number lines = .error cause →
        linker.link (uniformRequest lines semantics formats) = .error cause' →
          cause' = cause.mapTexts Text.trimmed := by
  obtain ⟨name, hname⟩ : ∃ name, linker.options.groups.outer[number]? = some name :=
    ⟨_, List.getElem?_eq_getElem hnumber⟩
  rw [linker.outerGroup_eq hname, linker.link_uniformRequest hlines hsize, groupOf_trimmed,
    linker.groupOf_moved linker.options.groups.meshGroup number linker.options.groups.mesh name]
  cases hmesh : linker.groupOf linker.options.groups.meshGroup linker.options.groups.mesh lines with
  | error cause =>
    refine ⟨iff_of_false ?_ ?_, ?_, ?_⟩
    · rintro ⟨_, ⟨⟩⟩
    · rintro ⟨_, ⟨⟩⟩
    · rintro _ _ ⟨⟩
    · rintro _ _ ⟨⟩ ⟨⟩
      rfl
  | ok mesh =>
    refine ⟨iff_of_true ⟨_, rfl⟩ ⟨_, rfl⟩, ?_, ?_⟩
    · rintro _ _ ⟨⟩ ⟨⟩
      exact linker.mirrors_moved hname hmesh
    · rintro _ _ ⟨⟩

/-- Lines with blanks at their ends, of which one is repeated. -/
def tintLines : List String :=
  ["\tvec4 tint ", "sampler2D sky", "vec4  tint"]

/-- The lines make a group of the standard linker's second name and a mesh group. -/
theorem outerGroup_link_tintLines :
    ∃ scope pair, outerGroup ⟨.standard, .standard⟩ 1 tintLines = .ok scope ∧
      link ⟨.standard, .standard⟩ (uniformRequest tintLines ∅ fun _ => none) = .ok pair ∧
      scope.code =
        "layout(set = 1, binding = 0, std140) uniform ub_material \x7b\n    vec4 tint;\n\x7d;\n"
          ++ "layout(set = 1, binding = 1) uniform texture2D sky;\n"
          ++ "layout(set = 1, binding = 2) uniform sampler sky_sampler;\n" ∧
      Mirrors ⟨.standard, .standard⟩ 1 tintLines scope pair := by
  have hcode : (outerGroup ⟨.standard, .standard⟩ 1 tintLines).map (·.code) = .ok
      ("layout(set = 1, binding = 0, std140) uniform ub_material \x7b\n    vec4 tint;\n\x7d;\n"
        ++ "layout(set = 1, binding = 1) uniform texture2D sky;\n"
        ++ "layout(set = 1, binding = 2) uniform sampler sky_sampler;\n") := by
    decide +kernel
  obtain ⟨scope, hscope, hcode⟩ := Outcome.map_eq_ok_iff.1 hcode
  have hlines : ∀ line ∈ tintLines, ';' ∉ line.toList := by decide
  obtain ⟨hiff, hmirrors, -⟩ := @outerGroup_link ⟨.standard, .standard⟩ 1 (by decide)
    tintLines hlines (by decide +kernel) ∅ fun _ => none
  obtain ⟨pair, hpair⟩ := hiff.1 ⟨scope, hscope⟩
  exact ⟨scope, pair, hscope, hpair, hcode, hmirrors scope pair hscope hpair⟩

end Linker

end ShaderInterface
