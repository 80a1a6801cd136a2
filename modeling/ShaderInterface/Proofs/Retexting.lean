import ShaderInterface.Proofs.Merging
import ShaderInterface.Proofs.Resources

/-!
# Uniforms in other words

The text of a declaration is read by its words and kept only for messages. So lines of which each is
replaced by a text with the same words, such as the line without the blanks at its ends, are merged
and made into a group with the same result, or fail with the same cause that carries the other texts
(`Uniform.merge_retext`, `ResourceGroup.ofUniforms_retext`). The number and the name of a group show
nowhere but in its name, its number and the name of its buffer (`ResourceGroup.ofUniforms_moved`).
-/

namespace ShaderInterface

open Outcome (bimap)

/-- The cause with other texts for the declarations at fault. -/
def LinkError.mapTexts (f : String → String) : LinkError → LinkError
  | .invalidDeclaration stage keyword text => .invalidDeclaration stage keyword (f text)
  | .invalidUniform stage text => .invalidUniform stage (f text)
  | .uniformArray stage text => .uniformArray stage (f text)
  | .severalUniforms stage text => .severalUniforms stage (f text)
  | .conflictingUniforms name first second => .conflictingUniforms name (f first) (f second)
  | .unknownUniformType stage typeName text => .unknownUniformType stage typeName (f text)
  | .missingProducer name text => .missingProducer name (f text)
  | cause => cause

/-- A change of texts that keeps their words. -/
def Text.KeepsWords (f : String → String) : Prop :=
  ∀ s, words (f s) = words s

namespace Uniform

variable {f : String → String}

/-- The uniform with another text. -/
def retext (f : String → String) (u : Uniform) : Uniform :=
  { u with text := f u.text }

/-- Another text with the same words is read alike. -/
theorem parse_retext (hf : Text.KeepsWords f) (stage : Stage) (text : String) :
    parse stage (f text) = bimap (retext f) (LinkError.mapTexts f) (parse stage text) := by
  rw [parse, parse, Declarator.parse_congr (hf text)]
  cases Declarator.parse text with
  | ok d => rfl
  | error fault => cases fault <;> rfl

/-- A line with another text is added alike. -/
theorem addLine_retext (hf : Text.KeepsWords f) (found : Array Uniform) (line : Stage × String) :
    addLine (found.map (retext f)) (line.1, f line.2) =
      bimap (Array.map (retext f)) (LinkError.mapTexts f) (addLine found line) := by
  rw [addLine, addLine, parse_retext hf]
  refine Outcome.bind_bimap (fun u => ?_) (parse line.1 line.2)
  have hfind : (found.map (retext f)).find? (·.name == (retext f u).name) =
      (found.find? (·.name == u.name)).map (retext f) := Array.find?_map ..
  rw [hfind]
  cases found.find? (·.name == u.name) with
  | none => exact congrArg Except.ok Array.map_push.symm
  | some first =>
    have hwords : Text.words (retext f first).text = Text.words (retext f u).text ↔
        Text.words first.text = Text.words u.text := by
      rw [retext, retext, hf, hf]
    dsimp only [Option.map_some]
    by_cases h : Text.words first.text = Text.words u.text
    · rw [if_pos h, if_pos (hwords.2 h)]
      rfl
    · rw [if_neg h, if_neg (mt hwords.1 h)]
      rfl

/-- Lines with other texts are merged alike. -/
theorem merge_retext (hf : Text.KeepsWords f) (lines : List (Stage × String)) :
    merge (lines.map fun line => (line.1, f line.2)) =
      bimap (List.map (retext f)) (LinkError.mapTexts f) (merge lines) := by
  have hfold := Outcome.foldlM_bimap (addLine_retext hf) lines #[]
  rw [Array.map_empty] at hfold
  rw [merge, merge, hfold]
  cases lines.foldlM addLine #[] with
  | error cause => rfl
  | ok found => exact congrArg Except.ok Array.toList_map

end Uniform

variable {tables : HostTables} {sampling : HighpSampling}

/-- A uniform with another text becomes the same member. -/
theorem Member.ofUniform_retext (f : String → String) (u : Uniform) :
    ofUniform tables (u.retext f) = bimap id (LinkError.mapTexts f) (ofUniform tables u) := by
  rw [ofUniform, ofUniform, Uniform.retext]
  cases tables.elementCount? u.typeName with
  | none => rfl
  | some count =>
    dsimp only
    split
    · rfl
    split
    · rfl
    · rfl

/-- Uniforms with other texts are laid out alike. -/
theorem BufferLayout.ofUniforms_retext (f : String → String) (us : List Uniform) :
    ofUniforms tables (us.map (.retext f)) =
      bimap id (LinkError.mapTexts f) (ofUniforms tables us) := by
  rw [ofUniforms, ofUniforms, Outcome.mapM_bimap (Member.ofUniform_retext f), List.map_id_fun]
  cases us.mapM (Member.ofUniform tables) with
  | error cause => rfl
  | ok ms => rfl

/-- A texture uniform with another text is bound alike. -/
theorem Texture.ofUniform_retext (f : String → String) (slot : Nat) (u : Uniform) :
    ofUniform tables sampling slot (u.retext f) =
      bimap id (LinkError.mapTexts f) (ofUniform tables sampling slot u) := by
  rw [ofUniform, ofUniform, Uniform.retext]
  dsimp only
  split
  · rfl
  cases tables.dimension? u.typeName with
  | none => rfl
  | some dimension => rfl

/-- Texture uniforms with other texts are bound alike. -/
theorem Texture.assign_retext (f : String → String) (first : Nat) (us : List Uniform) :
    assign tables sampling first (us.map (.retext f)) =
      bimap id (LinkError.mapTexts f) (assign tables sampling first us) := by
  have hplaces : (us.map (Uniform.retext f)).zipIdx =
      us.zipIdx.map fun place => (place.1.retext f, place.2) := List.zipIdx_map
  have hbound : ∀ place : Uniform × Nat,
      ofUniform tables sampling (first + 2 * place.2) (place.1.retext f) =
        bimap id (LinkError.mapTexts f)
          (ofUniform tables sampling (first + 2 * place.2) place.1) :=
    fun place => ofUniform_retext f (first + 2 * place.2) place.1
  rw [assign, assign, hplaces, Outcome.mapM_bimap hbound, List.map_id_fun]

namespace ResourceGroup

variable {group : Nat} {name : String}

/-- Uniforms with other texts make the same group. -/
theorem ofUniforms_retext (f : String → String) (us : List Uniform) :
    ofUniforms tables sampling group name (us.map (.retext f)) =
      bimap id (LinkError.mapTexts f) (ofUniforms tables sampling group name us) := by
  have hvalues : (us.map (Uniform.retext f)).filter (!·.isTexture) =
      (us.filter (!·.isTexture)).map (.retext f) := List.filter_map
  have htextures : (us.map (Uniform.retext f)).filter (·.isTexture) =
      (us.filter (·.isTexture)).map (.retext f) := List.filter_map
  rw [ofUniforms, ofUniforms, hvalues, htextures, ofParts, ofParts,
    BufferLayout.ofUniforms_retext]
  refine Outcome.bind_bimap (fun layout => ?_) _
  dsimp only [id]
  rw [Texture.assign_retext]
  cases Texture.assign tables sampling _ (us.filter (·.isTexture)) with
  | error cause => rfl
  | ok bound => rfl

/-- The same resources in a group of another number and name. -/
def moved (group : Nat) (name : String) (g : ResourceGroup) : ResourceGroup where
  name := name
  layout := g.layout
  bindings :=
    { group := group
      buffer := g.bindings.buffer.map fun buffer => { buffer with name := "ub_" ++ name }
      textures := g.bindings.textures }

/-- Uniforms make the same resources in each group. -/
theorem ofUniforms_moved (group' : Nat) (name' : String) (us : List Uniform) :
    ofUniforms tables sampling group' name' us =
      bimap (moved group' name') id (ofUniforms tables sampling group name us) := by
  rw [ofUniforms, ofUniforms, ofParts, ofParts]
  cases BufferLayout.ofUniforms tables (us.filter (!·.isTexture)) with
  | error cause => rfl
  | ok layout =>
    have hslot : (⟨group', layout.map (bufferBinding name'), []⟩ : BindingTable).firstTextureSlot =
        (⟨group, layout.map (bufferBinding name), []⟩ : BindingTable).firstTextureSlot := by
      cases layout <;> rfl
    dsimp only [bind, Except.bind]
    rw [hslot]
    cases Texture.assign tables sampling _ (us.filter (·.isTexture)) with
    | error cause => rfl
    | ok bound => cases layout <;> rfl

end ResourceGroup

end ShaderInterface
