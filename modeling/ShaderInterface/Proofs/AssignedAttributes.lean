import Mathlib.Data.List.Perm.Subperm
import ShaderInterface.Proofs.Causes
import ShaderInterface.Proofs.Identifiers

/-!
# Attributes at their locations

The attributes that are placed are the declared ones that have a semantic, in order, each at a
location that no other has (`Attribute.Assigned`). Otherwise the first line at fault decides: it is
no attribute, or its semantic has no location, or an attribute in front of it has the same location
(`Attribute.Fault`).
-/

namespace ShaderInterface

open Variable (AreWritten Declares)
open GlobalDeclaration (print print_flatMap)

namespace Attribute

variable {semantics : SemanticMap} {formats : FormatMap}
  {location : Semantic → Except UnsupportedSemantic Nat}

/-! ## What is placed -/

/-- The attributes are those of the lines that have a semantic, in order; their formats tell
whether they are converted. -/
theorem lines_of_foldlM {lines : List String} {placed out : Array Attribute}
    (h : lines.foldlM (place semantics formats location) placed = .ok out) :
    ∃ vs as, AreWritten vs lines ∧ out.toList = placed.toList ++ as ∧
      as.map (·.toVariable) = vs.filter (fun v => semantics[v.name]?.isSome) ∧
      ∀ a ∈ as, a.integers = (formats a.semantic).bind (·.integers?) := by
  induction lines generalizing placed with
  | nil =>
    obtain rfl := Except.ok.inj h
    exact ⟨[], [], .nil, (List.append_nil _).symm, rfl, List.forall_mem_nil _⟩
  | cons text lines ih =>
    rw [List.foldlM_cons, Outcome.bind_eq_ok_iff] at h
    obtain ⟨between, htext, hlines⟩ := h
    obtain ⟨vs, as, hvs, hout, has, hintegers⟩ := ih hlines
    obtain ⟨v, hv, ⟨hnone, rfl⟩ | ⟨s, l, hs, -, -, rfl⟩⟩ := place_eq_ok_iff.1 htext
    · refine ⟨v :: vs, as, .cons (Variable.parse_eq_ok_iff_isWritten.1 hv) hvs, hout, ?_, hintegers⟩
      rw [has, List.filter_cons_of_neg]
      simp [hnone]
    · refine ⟨v :: vs, ⟨⟨v, l⟩, s, (formats s).bind (·.integers?)⟩ :: as,
        .cons (Variable.parse_eq_ok_iff_isWritten.1 hv) hvs, ?_, ?_, ?_⟩
      · rw [hout, Array.toList_push, List.append_assoc, List.singleton_append]
      · rw [List.map_cons, has, List.filter_cons_of_pos]
        simp [hs]
      · exact List.forall_mem_cons.2 ⟨rfl, hintegers⟩

/-- Attributes with locations of their own are no more than there are locations. -/
theorem length_le_of_nodup {attributes : List Attribute} {count : Nat}
    (h : (attributes.map (·.location)).Nodup) (hlt : ∀ a ∈ attributes, a.location < count) :
    attributes.length ≤ count := by
  have hsubset : attributes.map (·.location) ⊆ List.range count := by
    intro l hl
    obtain ⟨a, ha, rfl⟩ := List.mem_map.1 hl
    exact List.mem_range.2 (hlt a ha)
  have hlength := (List.subperm_of_subset h hsubset).length_le
  rwa [List.length_map, List.length_range] at hlength

/-! ## What is declared -/

/-- The data of the format is integers that are not fetched as fractions. -/
def IsIntegral (format : Option ElementFormat) : Prop :=
  ∃ f, format = some f ∧ f.type.isFloat = false ∧ f.normalized = false

/-- What the vertex stage declares for an attribute that is stored in the given format: integers
under another name and the value that is converted from them, or else the attribute itself. -/
def declaredFor (format : Option ElementFormat) (a : Attribute) : List GlobalDeclaration :=
  let qualifiers := locationQualifier a.location :: "in" :: a.qualifiers
  match format with
  | none => [.declared qualifiers a.typeName a.name]
  | some f =>
    if f.type.isFloat || f.normalized then [.declared qualifiers a.typeName a.name]
    else
      let signedness := if f.type.isSignedInt then Signedness.signed else .unsigned
      [.declared qualifiers (integerType signedness (componentCount a.typeName))
          ("_private_" ++ a.name),
        .defined a.typeName a.name (a.typeName ++ "(" ++ ("_private_" ++ a.name) ++ ")")]

/-- The attribute is converted if its data is integers. -/
theorem isSome_conversion?_iff {a : Attribute} {format : Option ElementFormat}
    (h : a.integers = format.bind (·.integers?)) : a.conversion?.isSome ↔ IsIntegral format := by
  rw [conversion?, Option.isSome_map, h, IsIntegral]
  cases format with
  | none => simp
  | some f => simp [ElementFormat.integers?, ElementFormat.arrivesAsInt]

/-- The attribute is declared as its format demands. -/
theorem globals_eq_declaredFor {a : Attribute} {format : Option ElementFormat}
    (h : a.integers = format.bind (·.integers?)) : a.globals = a.declaredFor format := by
  cases format with
  | none =>
    have hinteger : a.integers = none := h
    simp only [globals, declaredFor, inputType, inputName, hinteger]
    rfl
  | some f =>
    rw [Option.bind_some, ElementFormat.integers?, ElementFormat.arrivesAsInt, ← Bool.not_or] at h
    cases hfloats : f.type.isFloat || f.normalized with
    | true =>
      have hinteger : a.integers = none := by
        rw [h, hfloats]
        rfl
      simp only [globals, declaredFor, inputType, inputName, hinteger, hfloats]
      rfl
    | false =>
      have hinteger : a.integers =
          some (if f.type.isSignedInt then Signedness.signed else .unsigned) := by
        rw [h, hfloats]
        rfl
      simp only [globals, declaredFor, inputType, inputName, hinteger, hfloats]
      rfl

/-! ## Success -/

/-- The attributes are the lines that have a semantic, at locations of their own, and are declared
as their formats demand. -/
structure Assigned (semantics : SemanticMap) (formats : FormatMap)
    (location : Semantic → Except UnsupportedSemantic Nat) (lines : List String)
    (attributes : List Attribute) : Prop where
  /-- The attributes are those of the lines whose names have a semantic, in order. -/
  lines : ∃ vs, AreWritten vs lines ∧
    attributes.map (·.toVariable) = vs.filter (fun v => semantics[v.name]?.isSome)
  /-- An attribute has the semantic of its name. -/
  ofName : ∀ a ∈ attributes, semantics[a.name]? = some a.semantic
  /-- It is at the location of its semantic. -/
  ofSemantic : ∀ a ∈ attributes, location a.semantic = .ok a.location
  /-- No two attributes have one location, one semantic or one name. -/
  nodupLocations : (attributes.map (·.location)).Nodup
  nodupSemantics : (attributes.map (·.semantic)).Nodup
  nodupNames : (attributes.map (·.name)).Nodup
  /-- Locations that are all below a bound are enough for that many attributes. -/
  bounded : ∀ count, (∀ s l, location s = .ok l → l < count) →
    attributes.length ≤ count ∧ ∀ a ∈ attributes, a.location < count
  /-- An attribute is converted if its data is integers. -/
  converted : ∀ a ∈ attributes, a.conversion?.isSome ↔ IsIntegral (formats a.semantic)
  /-- The code declares the attributes one after the other. -/
  code : declarations attributes = print (attributes.flatMap fun a =>
    a.declaredFor (formats a.semantic))

/-- Attributes that are placed are those of the lines that have a semantic. -/
theorem assigned_of_assign {lines : List String} {attributes : List Attribute}
    (h : assign semantics formats location lines = .ok attributes) :
    Assigned semantics formats location lines attributes := by
  have hlocated := located_of_assign h
  obtain ⟨placed, hplaced, rfl⟩ := Outcome.map_eq_ok_iff.1 h
  obtain ⟨vs, as, hvs, hout, has, hintegers⟩ := lines_of_foldlM hplaced
  rw [Array.toList_empty, List.nil_append] at hout
  obtain rfl := hout
  constructor
  case lines => exact ⟨vs, hvs, has⟩
  case ofName => exact hlocated.semantic
  case ofSemantic => exact hlocated.location
  case nodupLocations => exact hlocated.nodup
  case nodupSemantics => exact hlocated.nodup_semantics
  case nodupNames => exact hlocated.nodup_names
  case bounded =>
    intro count hcount
    have hlt : ∀ a ∈ placed.toList, a.location < count :=
      fun a ha => hcount a.semantic a.location (hlocated.location a ha)
    exact ⟨length_le_of_nodup hlocated.nodup hlt, hlt⟩
  case converted => exact fun a ha => isSome_conversion?_iff (hintegers a ha)
  case code =>
    rw [declarations, ← print_flatMap print_globals]
    exact congrArg print (List.flatMap_congr fun a ha => globals_eq_declaredFor (hintegers a ha))

/-! ## Failure -/

/-- What is wrong with a line behind the given ones. -/
inductive Fault (semantics : SemanticMap) (location : Semantic → Except UnsupportedSemantic Nat)
    (front : List String) (text : String) : LinkError → Prop
  /-- The line is no attribute. -/
  | unread (h : ¬ ∃ typeName name, Declares text typeName name) :
      Fault semantics location front text (.invalidDeclaration .vertex .attrib text)
  /-- The semantic of the attribute has no location. -/
  | unplaceable {typeName name : String} {s : Semantic} {reason : UnsupportedSemantic}
      (hdeclares : Declares text typeName name) (hsemantic : semantics[name]? = some s)
      (hlocation : location s = .error reason) :
      Fault semantics location front text (.unplaceableAttribute name reason)
  /-- An attribute in front of it has its location. -/
  | collision {first : String} {s s' : Semantic} {l : Nat} (hfirst : first ∈ front)
      (hsemantic : Mapped semantics first s) (hsemantic' : Mapped semantics text s')
      (hlocation : location s = .ok l) (hlocation' : location s' = .ok l) :
      Fault semantics location front text (.locationCollision l s s')

/-- Nothing is wrong with any of the lines. -/
def Faultless (semantics : SemanticMap) (location : Semantic → Except UnsupportedSemantic Nat)
    (lines : List String) : Prop :=
  ∀ front text behind cause, lines = front ++ text :: behind →
    ¬ Fault semantics location front text cause

/-- Nothing is wrong with lines that are placed. -/
theorem faultless_of_assign {lines : List String} {attributes : List Attribute}
    (h : assign semantics formats location lines = .ok attributes) :
    Faultless semantics location lines := by
  obtain ⟨hread, hlocated, hapart⟩ := exists_assign_eq_ok_iff.1 ⟨attributes, h⟩
  rintro front text behind cause rfl hfault
  have htext : text ∈ front ++ text :: behind := List.mem_append_cons_self
  cases hfault with
  | unread hnot => exact hnot (hread text htext)
  | unplaceable hdeclares hsemantic hlocation =>
    obtain ⟨l, hl⟩ := hlocated text htext _ ⟨_, _, hdeclares, hsemantic⟩
    rw [hl] at hlocation
    contradiction
  | collision hfirst hsemantic hsemantic' hlocation hlocation' =>
    have hne := (List.pairwise_append.1 hapart).2.2 _ hfirst text List.mem_cons_self
    exact hne _ _ hsemantic hsemantic' (hlocation.trans hlocation'.symm)

/-- Lines that are not placed fail at the first with a fault. -/
theorem exists_fault_of_assign {lines : List String} {cause : LinkError}
    (h : assign semantics formats location lines = .error cause) :
    ∃ front text behind, lines = front ++ text :: behind ∧ Faultless semantics location front ∧
      Fault semantics location front text cause := by
  rw [assign, Outcome.map_eq_error_iff] at h
  obtain ⟨front, text, behind, placed, rfl, hfront, htext⟩ := Outcome.exists_of_foldlM_eq_error h
  refine ⟨front, text, behind, rfl, ?_, ?_⟩
  · exact faultless_of_assign (Outcome.map_eq_ok_iff.2 ⟨placed, hfront, rfl⟩)
  · obtain ⟨rfl, hnot⟩ | ⟨typeName, name, s, hdeclares, hs, hcause⟩ := place_eq_error htext
    · exact .unread hnot
    · obtain ⟨reason, hlocation, rfl⟩ | ⟨l, hl, first, hfirst, hfirstl, rfl⟩ := hcause
      · exact .unplaceable hdeclares hs hlocation
      · -- the attribute that has the location was placed for a line in front
        obtain hempty | ⟨text', htext', hmapped, hlocation⟩ := exists_mapped_of_foldlM hfront hfirst
        · simp at hempty
        · exact .collision htext' hmapped ⟨typeName, name, hdeclares, hs⟩
            (hlocation.trans (congrArg Except.ok hfirstl)) hl

/-! ## Both -/

/-- Attributes are placed if no line is at fault. Those that are placed are the lines that have a
semantic, each at the location of its semantic, which no other has; of standard locations there are
16. Lines that are not placed fail with the fault of the first that has one. -/
theorem assigned_or_fault (semantics : SemanticMap) (formats : FormatMap)
    (location : Semantic → Except UnsupportedSemantic Nat) (lines : List String) :
    ((∃ attributes, assign semantics formats location lines = .ok attributes) ↔
      Faultless semantics location lines) ∧
    (∀ attributes, assign semantics formats location lines = .ok attributes →
      Assigned semantics formats location lines attributes ∧
      (location = Semantic.standardLocation → attributes.length ≤ 16 ∧
        ∀ a ∈ attributes, a.location < 16)) ∧
    ∀ cause, assign semantics formats location lines = .error cause →
      ∃ front text behind, lines = front ++ text :: behind ∧
        Faultless semantics location front ∧ Fault semantics location front text cause := by
  refine ⟨⟨?_, fun hfaultless => ?_⟩, fun attributes h => ?_, fun cause => exists_fault_of_assign⟩
  · rintro ⟨attributes, h⟩
    exact faultless_of_assign h
  · cases h : assign semantics formats location lines with
    | ok attributes => exact ⟨attributes, rfl⟩
    | error cause =>
      obtain ⟨front, text, behind, hlines, -, hfault⟩ := exists_fault_of_assign h
      exact absurd hfault (hfaultless front text behind cause hlines)
  · have hassigned := assigned_of_assign h
    refine ⟨hassigned, ?_⟩
    rintro rfl
    exact hassigned.bounded Semantic.locationCount fun _ _ => Semantic.standardLocation_lt

/-- Lines of which one has no semantic and one is stored as integers; behind them one that has the
location of the first. -/
theorem assigned_or_fault_boneLines :
    let semantics : SemanticMap := (((∅ : SemanticMap).insert "bones" .blendIndices).insert "tint"
      .color).insert "extra" (.generic 3)
    let formats : FormatMap := fun s => if s = .blendIndices then some ⟨.uint8, false⟩ else none
    let lines := ["vec4 bones", "vec2 unused", "lowp vec4 tint"]
    (∃ attributes,
      assign semantics formats Semantic.standardLocation lines = .ok attributes ∧
      declarations attributes = "layout(location = 3) in uvec4 _private_bones;\n"
        ++ "vec4 bones = vec4(_private_bones);\n"
        ++ "layout(location = 4) in lowp vec4 tint;\n" ∧
      Assigned semantics formats Semantic.standardLocation lines attributes) ∧
    assign semantics formats Semantic.standardLocation (lines ++ ["vec4 extra"]) =
      .error (.locationCollision 3 .blendIndices (.generic 3)) ∧
    ∃ front text behind, lines ++ ["vec4 extra"] = front ++ text :: behind ∧
      Faultless semantics Semantic.standardLocation front ∧
      Fault semantics Semantic.standardLocation front text
        (.locationCollision 3 .blendIndices (.generic 3)) := by
  intro semantics formats lines
  have hcode : (assign semantics formats Semantic.standardLocation lines).map declarations =
      .ok ("layout(location = 3) in uvec4 _private_bones;\n"
        ++ "vec4 bones = vec4(_private_bones);\n"
        ++ "layout(location = 4) in lowp vec4 tint;\n") := by
    decide +kernel
  have herror : assign semantics formats Semantic.standardLocation (lines ++ ["vec4 extra"]) =
      .error (.locationCollision 3 .blendIndices (.generic 3)) := by
    decide +kernel
  obtain ⟨attributes, hattributes, hcode⟩ := Outcome.map_eq_ok_iff.1 hcode
  refine ⟨⟨attributes, hattributes, hcode, ?_⟩, herror, ?_⟩
  · exact ((assigned_or_fault semantics formats Semantic.standardLocation lines).2.1 attributes
      hattributes).1
  · exact (assigned_or_fault semantics formats Semantic.standardLocation _).2.2 _ herror

end Attribute

end ShaderInterface
