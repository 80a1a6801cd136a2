import ShaderInterface.Proofs.AssignedAttributes
import ShaderInterface.Proofs.PairedVaryings

/-!
# Locations that variables take

A matrix takes a location for each of its columns, from the location at which it is declared. A
link gives out locations one by one whatever is declared there, so the variables of a linked pair
keep out of each other's way only as far as none of them is wider than its place:
`Linker.takesLocations_of_link` says exactly when.
-/

namespace ShaderInterface

/-! ## Ranges of locations -/

/-- The number of locations that a variable of the type takes. -/
def columnCount (typeName : String) : Nat :=
  match typeName with
  | "mat2" => 2
  | "mat3" => 3
  | "mat4" => 4
  | _ => 1

/-- The locations that a variable of the type takes from the given one on. -/
def locationsFrom (typeName : String) (location : Nat) : List Nat :=
  List.range' location (columnCount typeName)

/-- The locations that a variable takes. -/
def PlacedVariable.taken (v : PlacedVariable) : List Nat :=
  locationsFrom v.typeName v.location

/-- The locations that the input of an attribute takes. -/
def Attribute.taken (a : Attribute) : List Nat :=
  locationsFrom a.inputType a.location

/-- Every variable takes a location. -/
theorem columnCount_pos (typeName : String) : 0 < columnCount typeName := by
  unfold columnCount
  split <;> decide

/-- A variable takes the locations from its own on. -/
theorem mem_locationsFrom_iff {typeName : String} {location l : Nat} :
    l ∈ locationsFrom typeName location ↔ location ≤ l ∧ l < location + columnCount typeName :=
  List.mem_range'_1

/-- Two variables share no location if neither takes the first location of the other. -/
theorem disjoint_locationsFrom_iff {t t' : String} {l l' : Nat} :
    (locationsFrom t l).Disjoint (locationsFrom t' l') ↔
      l' ∉ locationsFrom t l ∧ l ∉ locationsFrom t' l' := by
  have ht := columnCount_pos t
  have ht' := columnCount_pos t'
  constructor
  · intro h
    refine ⟨fun hl' => h hl' ?_, fun hl => h ?_ hl⟩
    · rw [mem_locationsFrom_iff]
      omega
    · rw [mem_locationsFrom_iff]
      omega
  · rintro ⟨hl', hl⟩ k hk hk'
    rw [mem_locationsFrom_iff] at hl hl' hk hk'
    omega

namespace Attribute

/-- Attributes at different locations keep apart if no matrix reaches another attribute. -/
theorem pairwise_disjoint_iff {attributes : List Attribute}
    (h : (attributes.map (·.location)).Nodup) :
    attributes.Pairwise (fun a b => a.taken.Disjoint b.taken) ↔
      ∀ a ∈ attributes, ∀ b ∈ attributes, a.location < b.location → b.location ∉ a.taken := by
  have hlocations := List.pairwise_map.1 h
  constructor
  · intro hpairwise a ha b hb hlt
    have hne : a ≠ b := by
      rintro rfl
      exact Nat.lt_irrefl _ hlt
    have : Std.Symm fun a b : Attribute => a.taken.Disjoint b.taken :=
      ⟨fun _ _ hab _ hb' ha' => hab ha' hb'⟩
    exact (disjoint_locationsFrom_iff.1 (hpairwise.forall ha hb hne)).1
  · intro hfree
    refine hlocations.imp_of_mem fun {a b} ha hb hne => disjoint_locationsFrom_iff.2 ?_
    rcases Nat.lt_or_gt_of_ne hne with hlt | hgt
    · refine ⟨hfree a ha b hb hlt, fun hmem => ?_⟩
      have := (mem_locationsFrom_iff.1 hmem).1
      omega
    · refine ⟨fun hmem => ?_, hfree b hb a ha hgt⟩
      have := (mem_locationsFrom_iff.1 hmem).1
      omega

/-- The locations of an attribute are below a bound if its last column is. -/
theorem forall_taken_lt_iff {a : Attribute} {count : Nat} :
    (∀ l ∈ a.taken, l < count) ↔ a.location + columnCount a.inputType ≤ count := by
  have hpos := columnCount_pos a.inputType
  simp only [taken, mem_locationsFrom_iff]
  constructor
  · intro h
    have := h (a.location + columnCount a.inputType - 1) (by omega)
    omega
  · intro h l hl
    omega

end Attribute

/-- Varyings that are numbered in order keep apart if none but the last is a matrix. -/
theorem Varyings.pairwise_disjoint_iff {start : Nat} {vs : List PlacedVariable}
    (h : vs.map (·.location) = List.range' start vs.length) :
    vs.Pairwise (fun v w => v.taken.Disjoint w.taken) ↔
      ∀ v ∈ vs.dropLast, columnCount v.typeName = 1 := by
  induction vs generalizing start with
  | nil => exact iff_of_true .nil (List.forall_mem_nil _)
  | cons v vs ih =>
    rw [List.map_cons, List.length_cons, List.range'_succ, List.cons.injEq] at h
    obtain ⟨hstart, hlocations⟩ := h
    rw [List.pairwise_cons, ih hlocations]
    cases vs with
    | nil => simp
    | cons w vs =>
      have hbehind : ∀ u ∈ w :: vs, v.location < u.location := by
        intro u hu
        have hmem := List.mem_map_of_mem (f := (·.location)) hu
        rw [hlocations] at hmem
        have := (List.mem_range'_1.1 hmem).1
        omega
      have hnext : w.location = v.location + 1 := by
        rw [List.map_cons, List.length_cons, List.range'_succ, List.cons.injEq] at hlocations
        rw [hlocations.1, hstart]
      rw [List.dropLast_cons_cons, List.forall_mem_cons (a := v)]
      refine and_congr_left fun _ => ?_
      constructor
      · intro hdisjoint
        have hpos := columnCount_pos v.typeName
        have hw := (disjoint_locationsFrom_iff.1 (hdisjoint w List.mem_cons_self)).1
        rw [mem_locationsFrom_iff, hnext] at hw
        omega
      · intro hsingle u hu
        have hlt := hbehind u hu
        refine disjoint_locationsFrom_iff.2 ⟨fun hmem => ?_, fun hmem => ?_⟩
        · have := (mem_locationsFrom_iff.1 hmem).2
          omega
        · have := (mem_locationsFrom_iff.1 hmem).1
          omega

/-! ## Linked pairs -/

/-- Which locations the attributes and the varyings of a vertex stage take. -/
structure Assignment.TakesLocations (a : Assignment) : Prop where
  /-- No two attributes begin at one location. -/
  nodup : (a.attributes.map (·.location)).Nodup
  /-- They begin at locations that the stage offers. -/
  begins : ∀ x ∈ a.attributes, x.location < Semantic.locationCount
  /-- Attributes keep apart if no matrix reaches where another attribute begins. -/
  apart : a.attributes.Pairwise (fun x y => x.taken.Disjoint y.taken) ↔
    ∀ x ∈ a.attributes, ∀ y ∈ a.attributes, x.location < y.location → y.location ∉ x.taken
  /-- They stay within the locations that the stage offers if all columns of matrices do. -/
  ends : (∀ x ∈ a.attributes, ∀ l ∈ x.taken, l < Semantic.locationCount) ↔
    ∀ x ∈ a.attributes, x.location + columnCount x.inputType ≤ Semantic.locationCount
  /-- Varyings begin at one location after the other. -/
  numbered : a.varyings.vertex.map (·.location) = List.range a.varyings.vertex.length
  /-- They keep apart if none but the last is a matrix. -/
  varyingsApart : a.varyings.vertex.Pairwise (fun v w => v.taken.Disjoint w.taken) ↔
    ∀ v ∈ a.varyings.vertex.dropLast, columnCount v.typeName = 1

namespace Linker

/-- Of the attributes and varyings of a linked pair only matrices get in the way of others. -/
theorem takesLocations_of_link {linker : Linker} {request : LinkRequest} {pair : LinkedPair}
    (h : linker.link request = .ok pair)
    (hlocation : linker.tables.location = Semantic.standardLocation) :
    pair.assignment.TakesLocations := by
  obtain ⟨-, vs, -, fs, -, a, ha, rfl⟩ := link_eq_ok_iff.1 h
  simp only [assign, Outcome.bind_eq_ok_iff] at ha
  obtain ⟨⟨⟩, -, ⟨⟩, -, as, has, ws, hws, os, -, us, -, g, -, ha⟩ := ha
  obtain rfl := Except.ok.inj ha
  rw [hlocation] at has
  have hlocated := Attribute.located_of_assign has
  have hpaired := Varyings.pair_eq_ok_iff.1 hws
  constructor
  case nodup => exact hlocated.nodup
  case begins =>
    exact fun x hx => Semantic.standardLocation_lt (hlocated.location x hx)
  case apart => exact Attribute.pairwise_disjoint_iff hlocated.nodup
  case ends => exact forall₂_congr fun x _ => Attribute.forall_taken_lt_iff
  case numbered => exact hpaired.numbered
  case varyingsApart =>
    exact Varyings.pairwise_disjoint_iff (hpaired.numbered.trans List.range_eq_range')

/-- A pair with matrices that reach no other variable. -/
def boneRequest : LinkRequest where
  vertex := "attribute mat4 bone;\nattribute vec2 uv;\nvarying vec2 at;\nvarying mat3 frame;\n"
  fragment := ""
  semantics := ((∅ : SemanticMap).insert "bone" (.texCoord 0)).insert "uv" .tangent
  formats := fun _ => none
  scopes := []

/-- Its matrices take four and three locations. -/
theorem takesLocations_of_link_boneRequest :
    ∃ pair, link ⟨.standard, .standard⟩ boneRequest = .ok pair ∧
      HostTables.standard.location = Semantic.standardLocation ∧
      pair.assignment.attributes.map (·.taken) = [[5, 6, 7, 8], [13]] ∧
      pair.assignment.varyings.vertex.map (·.taken) = [[0], [1, 2, 3]] ∧
      pair.assignment.TakesLocations := by
  have htaken : (link ⟨.standard, .standard⟩ boneRequest).map (fun pair =>
      (pair.assignment.attributes.map (·.taken), pair.assignment.varyings.vertex.map (·.taken))) =
        .ok ([[5, 6, 7, 8], [13]], [[0], [1, 2, 3]]) := by
    decide +kernel
  obtain ⟨pair, hlink, htaken⟩ := Outcome.map_eq_ok_iff.1 htaken
  obtain ⟨hattributes, hvaryings⟩ := Prod.mk.inj htaken
  exact ⟨pair, hlink, rfl, hattributes, hvaryings, takesLocations_of_link hlink rfl⟩

/-- A pair with matrices in front of other variables. -/
def crowdedRequest : LinkRequest where
  vertex := "attribute mat4 bone;\nattribute vec2 uv;\nvarying mat3 frame;\nvarying vec2 at;\n"
  fragment := ""
  semantics := ((∅ : SemanticMap).insert "bone" (.generic 13)).insert "uv" (.generic 14)
  formats := fun _ => none
  scopes := []

/-- The pair is linked, but its attributes and its varyings overlap, and one attribute goes past
the locations that the stage offers. -/
theorem not_disjoint_taken_crowdedRequest :
    ∃ pair, link ⟨.standard, .standard⟩ crowdedRequest = .ok pair ∧
      HostTables.standard.location = Semantic.standardLocation ∧
      pair.assignment.attributes.map (·.taken) = [[13, 14, 15, 16], [14]] ∧
      pair.assignment.varyings.vertex.map (·.taken) = [[0, 1, 2], [1]] ∧
      ¬ pair.assignment.attributes.Pairwise (fun x y => x.taken.Disjoint y.taken) ∧
      ¬ (∀ x ∈ pair.assignment.attributes, ∀ l ∈ x.taken, l < Semantic.locationCount) ∧
      ¬ pair.assignment.varyings.vertex.Pairwise (fun v w => v.taken.Disjoint w.taken) := by
  have htaken : (link ⟨.standard, .standard⟩ crowdedRequest).map (fun pair =>
      (pair.assignment.attributes.map (·.taken), pair.assignment.varyings.vertex.map (·.taken))) =
        .ok ([[13, 14, 15, 16], [14]], [[0, 1, 2], [1]]) := by
    decide +kernel
  obtain ⟨pair, hlink, htaken⟩ := Outcome.map_eq_ok_iff.1 htaken
  obtain ⟨hattributes, hvaryings⟩ := Prod.mk.inj htaken
  refine ⟨pair, hlink, rfl, hattributes, hvaryings, ?_, ?_, ?_⟩
  · intro hapart
    have hrows : (pair.assignment.attributes.map (·.taken)).Pairwise List.Disjoint :=
      List.pairwise_map.2 hapart
    rw [hattributes] at hrows
    simp at hrows
  · intro hlt
    have hrow : [13, 14, 15, 16] ∈ pair.assignment.attributes.map (·.taken) := by simp [hattributes]
    obtain ⟨x, hx, htaken⟩ := List.mem_map.1 hrow
    have hlast : 16 < Semantic.locationCount := hlt x hx 16 (by simp [htaken])
    exact Nat.lt_irrefl 16 hlast
  · intro hapart
    have hrows : (pair.assignment.varyings.vertex.map (·.taken)).Pairwise List.Disjoint :=
      List.pairwise_map.2 hapart
    rw [hvaryings] at hrows
    simp at hrows

end Linker

end ShaderInterface
