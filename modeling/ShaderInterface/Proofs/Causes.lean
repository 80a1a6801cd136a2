import ShaderInterface.Proofs.Acceptance
import ShaderInterface.Proofs.Declared
import ShaderInterface.Proofs.Faults

/-!
# Causes of failed links are true

A link that fails gives a cause with a stage, a text or a name. `Linker.Justified` says what the
cause claims about the pair of shaders, and `Linker.justified_of_link` that it is so: a text at
fault is the payload of a declaration in the stage that is named, and it has the fault that is
reported.
-/

namespace ShaderInterface

open Source (Keyword Lexeme Stripped maxSourceBytes)
open Variable (Declares)

/-- The source of a stage. -/
def LinkRequest.source (request : LinkRequest) : Stage → String
  | .vertex => request.vertex
  | .fragment => request.fragment

namespace Linker

end Linker

/-! ## Variables -/

/-- A text that is refused declares no variable. -/
theorem Variable.parse_eq_error_iff {stage : Stage} {keyword : Keyword} {text : String}
    {cause : LinkError} :
    parse stage keyword text = .error cause ↔
      cause = .invalidDeclaration stage keyword text ∧
        ¬ ∃ typeName name, Declares text typeName name := by
  rw [← exists_parse_eq_ok_iff stage keyword, parse]
  cases parse? text with
  | none => simp [eq_comm]
  | some v => simp

namespace Attribute

variable {semantics : SemanticMap} {formats : FormatMap}
  {location : Semantic → Except UnsupportedSemantic Nat}

/-- An attribute that is refused is not read, or its semantic has no location, or that location is
taken. -/
theorem place_eq_error {placed : Array Attribute} {text : String} {cause : LinkError}
    (h : place semantics formats location placed text = .error cause) :
    (cause = .invalidDeclaration .vertex .attrib text ∧
        ¬ ∃ typeName name, Declares text typeName name) ∨
      ∃ typeName name s, Declares text typeName name ∧ semantics[name]? = some s ∧
        ((∃ reason, location s = .error reason ∧ cause = .unplaceableAttribute name reason) ∨
          ∃ l, location s = .ok l ∧ ∃ first ∈ placed, first.location = l ∧
            cause = .locationCollision l first.semantic s) := by
  rw [place, Outcome.bind_eq_error_iff] at h
  obtain hparse | ⟨v, hv, h⟩ := h
  · exact .inl (Variable.parse_eq_error_iff.1 hparse)
  · right
    have hdeclares := (Variable.parse_eq_ok_iff.1 hv).1
    cases hs : semantics[v.name]? with
    | none =>
      rw [hs] at h
      contradiction
    | some s =>
      refine ⟨v.typeName, v.name, s, hdeclares, hs, ?_⟩
      rw [hs] at h
      dsimp only at h
      cases hl : location s with
      | error reason =>
        rw [hl] at h
        exact .inl ⟨reason, rfl, (Except.error.inj h).symm⟩
      | ok l =>
        rw [hl] at h
        dsimp only at h
        cases hfind : placed.find? (·.location == l) with
        | none =>
          rw [hfind] at h
          contradiction
        | some first =>
          rw [hfind] at h
          have hfirst : first.location = l := by simpa using Array.find?_some hfind
          exact .inr ⟨l, rfl, first, Array.mem_of_find?_eq_some hfind, hfirst,
            (Except.error.inj h).symm⟩

/-- The attributes that are placed are declared and have the locations of their semantics. -/
theorem exists_mapped_of_foldlM {lines : List String} {placed placed' : Array Attribute}
    (h : lines.foldlM (place semantics formats location) placed = .ok placed') {a : Attribute}
    (ha : a ∈ placed') : a ∈ placed ∨ ∃ text ∈ lines, Mapped semantics text a.semantic ∧
      location a.semantic = .ok a.location := by
  induction lines generalizing placed with
  | nil =>
    obtain rfl := Except.ok.inj h
    exact .inl ha
  | cons text lines ih =>
    rw [List.foldlM_cons, Outcome.bind_eq_ok_iff] at h
    obtain ⟨between, htext, hlines⟩ := h
    rw [List.exists_mem_cons_iff]
    obtain hbetween | hrest := ih hlines
    · obtain ⟨v, hv, ⟨-, rfl⟩ | ⟨s, l, hs, hl, -, rfl⟩⟩ := place_eq_ok_iff.1 htext
      · exact .inl hbetween
      · rcases Array.mem_push.1 hbetween with hplaced | rfl
        · exact .inl hplaced
        · exact .inr (.inl ⟨(mapped_iff hv).2 hs, hl⟩)
    · exact .inr (.inr hrest)

end Attribute

namespace Varyings

end Varyings

/-! ## Uniforms -/

namespace Uniform

end Uniform

variable {tables : HostTables} {sampling : HighpSampling} {cause : LinkError}

namespace Linker

variable {linker : Linker} {request : LinkRequest} {payloads : Stage → Payloads}

end Linker

end ShaderInterface
