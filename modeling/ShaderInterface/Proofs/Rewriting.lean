import ShaderInterface.Proofs.LinkReads
import ShaderInterface.Proofs.Places

/-!
# Only declarations are rewritten

A linked source is the source with its declarations cut out and one block of code in the place of
the first one. `Source.rewritten` says this on the bytes of the source and the places of the
declarations alone; `Stripped.utf8_inject` shows that stripping a source and injecting a block
comes to the same, and `Linker.utf8_of_link` says so of both sources of a linked pair.
-/

namespace ShaderInterface

open Code (utf8)

/-! ## Blocks -/

namespace Block

/-- Code with a newline behind it, if it does not end with one. -/
def terminate (code : String) : String :=
  if ['\n'] <:+ code.toList then code else code ++ "\n"

/-- The sections that are not empty, each with a newline at its end. -/
def inOrder (sections : List String) : String :=
  String.join ((sections.filter (· ≠ "")).map terminate)

/-- The end of a line is put behind code that is not empty. -/
theorem endLine_of_ne_empty {code : String} (h : code ≠ "") : endLine code = terminate code := by
  have hlast : ['\n'] <:+ code.toList ↔ code.toList.getLast? = some '\n' := by
    rw [List.getLast?_eq_some_iff]
    exact ⟨fun ⟨cs, hcs⟩ => ⟨cs, hcs.symm⟩, fun ⟨cs, hcs⟩ => ⟨cs, hcs.symm⟩⟩
  have hempty : code.isEmpty = false := by
    simpa [String.isEmpty_iff] using h
  rw [endLine, terminate, hempty, Bool.false_or]
  simp only [hlast, beq_iff_eq]

/-- A block is made of the sections that are not empty. -/
theorem ofSections_eq (sections : List String) : ofSections sections = inOrder sections := by
  unfold ofSections inOrder
  induction sections with
  | nil => rfl
  | cons code sections ih =>
    rw [List.map_cons, String.join_cons, ih]
    by_cases h : code = ""
    · subst h
      rfl
    · rw [endLine_of_ne_empty h, List.filter_cons_of_pos (by simpa using h), List.map_cons,
        String.join_cons]

end Block

namespace Source

/-! ## Rewriting by places -/

/-- What is left of a source behind the byte `start` when the given declarations are cut out. -/
def gapsFrom (source : String) (start : Nat) : List Declaration → List UInt8
  | [] => slice source start source.utf8ByteSize
  | d :: ds => slice source start d.start ++ gapsFrom source d.stop ds

/-- The byte behind the line of a leading `#version` directive, or 0 without one. Blanks may stand
in front of the directive. -/
def versionLineEnd (source : String) : Nat :=
  let directive := Text.trimStart source.toList
  let start := source.utf8ByteSize - byteCount directive
  if "#version".toList <+: directive then
    if '\n' ∈ directive then start + byteCount (directive.takeWhile (· != '\n')) + 1
    else source.utf8ByteSize
  else 0

/-- The bytes with a newline behind them, if there are any and the last is not a newline. -/
def closeLine (bytes : List UInt8) : List UInt8 :=
  if bytes = [] ∨ bytes.getLast? = some 10 then bytes else bytes ++ utf8 "\n"

/-- A source with a block of code in the place of its declarations: in front of what the first one
leaves, or else behind a leading `#version` line. -/
def rewritten (source : String) (block : String) : List Declaration → List UInt8
  | d :: ds => slice source 0 d.start ++ utf8 block ++ utf8 "\n" ++ gapsFrom source d.stop ds
  | [] =>
    closeLine (slice source 0 (versionLineEnd source)) ++ utf8 block ++ utf8 "\n"
      ++ slice source (versionLineEnd source) source.utf8ByteSize

/-- Characters at the beginning of a source are found there. -/
theorem slice_zero_eq {source : String} {cs behind : List Char} (h : source.toList = cs ++ behind) :
    slice source 0 (byteCount cs) = utf8 (String.ofList cs) := by
  have hslice := @slice_eq source [] cs behind h
  rwa [byteCount_nil, Nat.zero_add] at hslice

/-- Characters at the end of a source are found there. -/
theorem slice_end_eq {source : String} {before cs : List Char} (h : source.toList = before ++ cs) :
    slice source (byteCount before) source.utf8ByteSize = utf8 (String.ofList cs) := by
  rw [← byteCount_toList, h, byteCount_append]
  apply @slice_eq source before cs []
  rw [List.append_nil, h]

/-- The gaps are what stands between the cuts and behind the last one. -/
theorem gapsFrom_placeFrom {source : String} {before gap : List Char}
    {cuts : List (Cut × List Char)}
    (h : source.toList = before ++ (gap ++ cuts.flatMap fun (cut, gap) => cut.text ++ gap)) :
    gapsFrom source (byteCount before)
        (Declaration.placeFrom (byteCount before + byteCount gap) cuts) =
      utf8 (String.ofList (gap ++ cuts.flatMap (·.2))) := by
  induction cuts generalizing before gap with
  | nil =>
    rw [List.flatMap_nil, List.append_nil] at h
    rw [List.flatMap_nil, List.append_nil]
    exact slice_end_eq h
  | cons next cuts ih =>
    obtain ⟨cut, gap'⟩ := next
    rw [List.flatMap_cons] at h
    -- the next gap begins where the cut ends
    have hrest : source.toList = (before ++ gap ++ cut.text) ++
        (gap' ++ cuts.flatMap fun (cut, gap) => cut.text ++ gap) := by
      simpa only [List.append_assoc] using h
    have hplace : byteCount (before ++ gap ++ cut.text)
        = byteCount before + byteCount gap + byteCount cut.text := by
      rw [byteCount_append, byteCount_append]
    have hgaps := ih hrest
    rw [hplace] at hgaps
    rw [List.flatMap_cons, utf8_ofList_append, ← hgaps, ← slice_eq h]
    rfl

/-- Nothing is added behind a newline. -/
theorem closeLine_newline (cs : List Char) :
    closeLine (utf8 (String.ofList (cs ++ ['\n']))) = utf8 (String.ofList (cs ++ ['\n'])) := by
  rw [closeLine, if_pos]
  exact .inr ((getLast?_utf8_eq_newline_iff _).2 List.getLast?_concat)

/-- A newline is added behind any other character. -/
theorem closeLine_concat {cs : List Char} {c : Char} (h : c ≠ '\n') :
    closeLine (utf8 (String.ofList (cs ++ [c]))) = utf8 (String.ofList (cs ++ [c] ++ ['\n'])) := by
  rw [closeLine, if_neg, utf8_ofList_append _ ['\n']]
  rintro (hnil | hlast)
  · rw [utf8_ofList] at hnil
    simp [String.utf8EncodeChar_ne_nil] at hnil
  · rw [getLast?_utf8_eq_newline_iff, List.getLast?_concat] at hlast
    exact h (Option.some.inj hlast)

/-- A block goes where the offset of the placeholder says, whatever else looks like one. -/
theorem utf8_inject_eq_splice (stripped : Stripped) (block : String) :
    utf8 (stripped.inject block) =
      (utf8 stripped.text).take stripped.placeholderOffset ++ utf8 block
        ++ (utf8 stripped.text).drop (stripped.placeholderOffset + placeholder.utf8ByteSize) := by
  have hhead : (utf8 stripped.head).length = stripped.placeholderOffset := Code.length_utf8 _
  have hmark : (utf8 stripped.head ++ utf8 placeholder).length =
      stripped.placeholderOffset + placeholder.utf8ByteSize := by
    rw [List.length_append, hhead, Code.length_utf8]
  rw [Stripped.text, Stripped.inject, Stripped.inject, Code.utf8_append, Code.utf8_append,
    Code.utf8_append, Code.utf8_append, List.drop_left' hmark,
    List.append_assoc _ (utf8 placeholder), List.take_left' hhead]

/-- The bytes of a block between two texts. -/
theorem utf8_inject_ofList (head tail : List Char) (declarations : List (Keyword × String))
    (block : String) :
    utf8 (Stripped.inject ⟨String.ofList head, String.ofList ('\n' :: tail), declarations⟩ block) =
      utf8 (String.ofList head) ++ utf8 block ++ utf8 "\n" ++ utf8 (String.ofList tail) := by
  have htail := utf8_ofList_append ['\n'] tail
  rw [Stripped.inject, Code.utf8_append, Code.utf8_append, List.append_assoc _ (utf8 "\n")]
  exact congrArg _ htail

/-- Without a leading `#version` directive the block goes to the beginning. -/
theorem versionLineEnd_of_eq_none {source : String} (h : splitVersionLine? source.toList = none) :
    versionLineEnd source = 0 := by
  rw [splitVersionLine?] at h
  split at h
  · contradiction
  · next hversion => exact if_neg hversion

/-- Behind the line of a leading `#version` directive stands the rest of the source. -/
theorem versionLineEnd_of_eq_some {source : String} {line rest : List Char}
    (h : splitVersionLine? source.toList = some (line, rest)) :
    versionLineEnd source = source.utf8ByteSize - byteCount rest := by
  have htotal := congrArg byteCount (Text.takeWhile_append_trimStart source.toList)
  rw [byteCount_append, byteCount_toList] at htotal
  rw [splitVersionLine?] at h
  split at h
  · next hversion =>
    obtain ⟨-, rfl⟩ := Prod.mk.inj (Option.some.inj h)
    rw [versionLineEnd, if_pos hversion]
    rcases eq_takeWhile_newline (Text.trimStart source.toList) with ⟨hline, hcons | ⟨hall, hnil⟩⟩
    · -- the line ends in front of a newline, which is one byte
      have hmem : '\n' ∈ Text.trimStart source.toList := by
        rw [hcons]
        exact List.mem_append_right _ List.mem_cons_self
      have hsize := congrArg byteCount hcons
      rw [byteCount_append, byteCount_cons_newline] at hsize
      rw [if_pos hmem]
      omega
    · -- the line runs to the end of the source
      rw [← hall] at hline
      rw [if_neg hline, hnil, byteCount_nil, Nat.sub_zero]
  · contradiction

/-- A source without declarations is divided behind its `#version` line. -/
theorem utf8_inject_ofBare (source : String) (block : String) :
    utf8 ((Stripped.ofBare source.toList).inject block) = rewritten source block [] := by
  rw [rewritten, Stripped.ofBare]
  cases hsplit : splitVersionLine? source.toList with
  | none =>
    have hwhole := @slice_end_eq source [] source.toList rfl
    rw [byteCount_nil] at hwhole
    rw [versionLineEnd_of_eq_none hsplit, hwhole]
    exact utf8_inject_ofList [] source.toList [] block
  | some parts =>
    obtain ⟨line, rest⟩ := parts
    have hend := versionLineEnd_of_eq_some hsplit
    obtain ⟨blanks, directive, rfl, -, hdirective, hnewline, htext⟩ :=
      splitVersionLine?_eq_some hsplit
    show utf8 (Stripped.inject ⟨_, _, []⟩ block) = _
    rw [utf8_inject_ofList]
    rcases htext with htext | ⟨htext, rfl⟩
    · -- a newline ends the line
      have hsource : source.toList = (blanks ++ directive ++ ['\n']) ++ rest := by
        rw [htext, List.append_assoc _ ['\n']]
        rfl
      have hplace : versionLineEnd source = byteCount (blanks ++ directive ++ ['\n']) := by
        rw [hend, ← byteCount_toList, hsource, byteCount_append, Nat.add_sub_cancel]
      rw [hplace, slice_zero_eq hsource, slice_end_eq hsource, closeLine_newline]
    · -- the source ends with the line, and the newline is added
      have hsource : source.toList = (blanks ++ directive) ++ [] := by
        rw [htext, List.append_nil]
      have hplace : versionLineEnd source = byteCount (blanks ++ directive) := by
        rw [hend, ← byteCount_toList, htext, byteCount_nil, Nat.sub_zero]
      rw [hplace, slice_zero_eq hsource, slice_end_eq hsource]
      rcases List.eq_nil_or_concat directive with rfl | ⟨ds, c, rfl⟩
      · exact absurd rfl hdirective
      · have hlast : c ≠ '\n' := by
          rintro rfl
          exact hnewline (by simp)
        rw [List.concat_eq_append, ← List.append_assoc, closeLine_concat hlast]

/-- Stripping a source and injecting a block comes to the same as cutting out the places of the
declarations and putting the block in the place of the first one. -/
theorem utf8_inject {stage : Stage} {source : String} {outline : Outline}
    (h : Outline.ofSource stage source = .ok outline) (block : String) :
    utf8 ((Stripped.ofOutline outline).inject block) =
      rewritten source block (Declaration.ofOutline outline) := by
  have htext := Outline.text_of_ofSource h
  obtain ⟨lead, cuts⟩ := outline
  cases cuts with
  | nil =>
    obtain rfl : lead = source.toList := by simpa [Outline.text] using htext
    exact utf8_inject_ofBare source block
  | cons next cuts =>
    obtain ⟨cut, gap⟩ := next
    rw [Outline.text, List.flatMap_cons, List.append_assoc] at htext
    have hrest : source.toList =
        (lead ++ cut.text) ++ (gap ++ cuts.flatMap fun (cut, gap) => cut.text ++ gap) := by
      rw [List.append_assoc, htext]
    have hgaps := gapsFrom_placeFrom hrest
    rw [byteCount_append] at hgaps
    simp only [Declaration.ofOutline_eq, Declaration.placeFrom, rewritten, Declaration.ofCut]
    rw [slice_zero_eq htext.symm, hgaps]
    simp [Stripped.ofOutline, Stripped.inject, Code.utf8_append]

end Source

/-! ## Linked sources -/

namespace Linker

open Source (Declaration Outline Stripped rewritten)

/-- A source that is stripped has declarations, and is rewritten at their places. -/
theorem utf8_inject_ofSource {stage : Stage} {source : String} {stripped : Stripped}
    (h : Stripped.ofSource stage source = .ok stripped) :
    ∃ ds, Declaration.ofSource stage source = .ok ds ∧
      ∀ block, utf8 (stripped.inject block) = rewritten source block ds := by
  rw [Stripped.ofSource] at h
  split at h
  · contradiction
  · obtain ⟨outline, houtline, rfl⟩ := Outcome.map_eq_ok_iff.1 h
    refine ⟨Declaration.ofOutline outline, ?_, Source.utf8_inject houtline⟩
    exact Source.Declaration.ofSource_eq_ok_iff.2 ⟨outline, houtline, rfl⟩

/-- In both sources of a linked pair nothing but the declarations is rewritten. The block that takes
their place holds the code of the scopes, that of the stage's variables and that of the mesh. -/
theorem utf8_of_link {linker : Linker} {request : LinkRequest} {pair : LinkedPair}
    (h : linker.link request = .ok pair) :
    let a := pair.assignment
    let codes := request.scopes.map (·.code)
    (∃ ds, Declaration.ofSource .vertex request.vertex = .ok ds ∧
      utf8 pair.vertex = rewritten request.vertex
        (Block.inOrder (codes ++ [Attribute.declarations a.attributes, a.varyings.vertexCode,
          a.mesh.code])) ds) ∧
    ∃ ds, Declaration.ofSource .fragment request.fragment = .ok ds ∧
      utf8 pair.fragment = rewritten request.fragment
        (Block.inOrder (codes ++ [a.varyings.fragmentCode,
          PlacedVariable.declarations .out a.outputs, a.mesh.code])) ds := by
  obtain ⟨-, vs, hvs, fs, hfs, a, -, rfl⟩ := link_eq_ok_iff.1 h
  obtain ⟨dsv, hdsv, hvertex⟩ := utf8_inject_ofSource hvs
  obtain ⟨dsf, hdsf, hfragment⟩ := utf8_inject_ofSource hfs
  refine ⟨⟨dsv, hdsv, ?_⟩, dsf, hdsf, ?_⟩
  · rw [← Block.ofSections_eq]
    exact hvertex _
  · rw [← Block.ofSections_eq]
    exact hfragment _

/-- A pair in which the placeholder stands in a comment, with a variable of each kind in the vertex
source. -/
def markedRequest (fragment : String) : LinkRequest where
  vertex := "// @@@\nattribute vec3 p;\nvarying vec2 uv;\nuniform vec4 tint;\nvoid main() {}\n"
  fragment
  semantics := (∅ : SemanticMap).insert "p" .position
  formats := fun _ => none
  scopes := [⟨fun _ => false, fun _ => false, "// view"⟩, ⟨fun _ => false, fun _ => false, ""⟩]

/-- The block that declares the mesh group of the pair. -/
def markedMesh : String :=
  "layout(set = 2, binding = 0, std140) uniform ub_mesh \x7b\n    vec4 tint;\n\x7d;\n"

/-- The comments of the pair stay, and the sections stand in order, also in a source of which
nothing is cut out. -/
theorem utf8_of_link_markedRequest :
    ∃ pair bare,
      link ⟨.standard, .standard⟩
        (markedRequest "// @@@\nvarying vec2 uv;\nout vec4 color;\n") = .ok pair ∧
      link ⟨.standard, .standard⟩ (markedRequest "#version 450\n// @@@\n") = .ok bare ∧
      pair.vertex = "// @@@\n// view\n" ++ "layout(location = 0) in vec3 p;\n" ++
        "layout(location = 0) out vec2 uv;\n" ++ markedMesh ++ "\n\n\n\nvoid main() \x7b\x7d\n" ∧
      pair.fragment = "// @@@\n// view\n" ++ "layout(location = 0) in vec2 uv;\n" ++
        "layout(location = 0) out vec4 color;\n" ++ markedMesh ++ "\n\n\n" ∧
      bare.fragment = "#version 450\n// view\n" ++ markedMesh ++ "\n// @@@\n" ∧
      (∃ ds, Declaration.ofSource .vertex (markedRequest "").vertex = .ok ds ∧
        utf8 pair.vertex = rewritten (markedRequest "").vertex
          (Block.inOrder ["// view", "", Attribute.declarations pair.assignment.attributes,
            pair.assignment.varyings.vertexCode, pair.assignment.mesh.code]) ds) ∧
      (∃ ds, Declaration.ofSource .fragment "// @@@\nvarying vec2 uv;\nout vec4 color;\n" = .ok ds ∧
        utf8 pair.fragment = rewritten "// @@@\nvarying vec2 uv;\nout vec4 color;\n"
          (Block.inOrder ["// view", "", pair.assignment.varyings.fragmentCode,
            PlacedVariable.declarations .out pair.assignment.outputs,
            pair.assignment.mesh.code]) ds) ∧
      ∃ ds, Declaration.ofSource .fragment "#version 450\n// @@@\n" = .ok ds ∧
        utf8 bare.fragment = rewritten "#version 450\n// @@@\n"
          (Block.inOrder ["// view", "", bare.assignment.varyings.fragmentCode,
            PlacedVariable.declarations .out bare.assignment.outputs,
            bare.assignment.mesh.code]) ds := by
  have hpair : (link ⟨.standard, .standard⟩
      (markedRequest "// @@@\nvarying vec2 uv;\nout vec4 color;\n")).map
        (fun pair => (pair.vertex, pair.fragment)) = .ok
          ("// @@@\n// view\n" ++ "layout(location = 0) in vec3 p;\n" ++
              "layout(location = 0) out vec2 uv;\n" ++ markedMesh ++
              "\n\n\n\nvoid main() \x7b\x7d\n",
            "// @@@\n// view\n" ++ "layout(location = 0) in vec2 uv;\n" ++
              "layout(location = 0) out vec4 color;\n" ++ markedMesh ++ "\n\n\n") := by
    decide +kernel
  have hbare : (link ⟨.standard, .standard⟩ (markedRequest "#version 450\n// @@@\n")).map
      (·.fragment) = .ok ("#version 450\n// view\n" ++ markedMesh ++ "\n// @@@\n") := by
    decide +kernel
  obtain ⟨pair, hpair, htexts⟩ := Outcome.map_eq_ok_iff.1 hpair
  obtain ⟨bare, hbare, hbareText⟩ := Outcome.map_eq_ok_iff.1 hbare
  obtain ⟨hvertex, hfragment⟩ := Prod.mk.inj htexts
  have hrewritten := utf8_of_link hpair
  exact ⟨pair, bare, hpair, hbare, hvertex, hfragment, hbareText, hrewritten.1, hrewritten.2,
    (utf8_of_link hbare).2⟩

end Linker

end ShaderInterface
