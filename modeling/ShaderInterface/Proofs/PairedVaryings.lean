import ShaderInterface.Proofs.GlobalDeclarations
import ShaderInterface.Proofs.Homes

/-!
# Varyings of two stages

The stages of a pair agree on where each varying is passed: the vertex stage numbers its varyings,
and the fragment stage declares each of its own at the number of the varying of that name
(`Varyings.pair_eq_ok_iff`). So it does not matter in which order the fragment stage declares what
it reads (`Varyings.exists_pair_of_perm`).
-/

namespace ShaderInterface

open Variable (AreWritten)
open GlobalDeclaration (print)

namespace Varyings

/-! ## Each stage -/

/-- The varyings of the vertex stage are numbered behind those that are produced already, and no
two have one name. -/
theorem foldlM_produce_eq_ok_iff {lines : List String} {produced out : Array PlacedVariable}
    (hproduced : (produced.toList.map (·.name)).Nodup) :
    lines.foldlM produce produced = .ok out ↔
      ∃ ws : List PlacedVariable, out.toList = produced.toList ++ ws ∧
        AreWritten (ws.map (·.toVariable)) lines ∧
        ws.map (·.location) = List.range' produced.size ws.length ∧
        (out.toList.map (·.name)).Nodup := by
  induction lines generalizing produced with
  | nil =>
    constructor
    · intro h
      obtain rfl := Except.ok.inj h
      exact ⟨[], (List.append_nil _).symm, .nil, rfl, hproduced⟩
    · rintro ⟨ws, hout, hwritten, -, -⟩
      obtain rfl : ws = [] := List.map_eq_nil_iff.1 (List.forall₂_nil_left_iff.1 hwritten)
      rw [List.append_nil] at hout
      rw [Array.toList_inj.1 hout]
      rfl
  | cons text lines ih =>
    rw [List.foldlM_cons, Outcome.bind_eq_ok_iff]
    constructor
    · rintro ⟨between, htext, hlines⟩
      obtain ⟨v, hv, hnew, rfl⟩ := produce_eq_ok_iff.1 htext
      have hbetween : ((produced.push ⟨v, produced.size⟩).toList.map (·.name)).Nodup :=
        nodup_map_push_iff.2 ⟨hproduced, hnew⟩
      obtain ⟨ws, hout, hwritten, hlocations, hnodup⟩ := (ih hbetween).1 hlines
      refine ⟨⟨v, produced.size⟩ :: ws, ?_, ?_, ?_, hnodup⟩
      · rw [hout, Array.toList_push, List.append_assoc, List.singleton_append]
      · exact .cons (Variable.parse_eq_ok_iff_isWritten.1 hv) hwritten
      · rw [List.map_cons, hlocations, Array.size_push, List.length_cons, List.range'_succ]
    · rintro ⟨ws, hout, hwritten, hlocations, hnodup⟩
      obtain ⟨w, ws, rfl⟩ := List.exists_cons_of_ne_nil (l := ws) (by rintro rfl; cases hwritten)
      obtain ⟨v, location⟩ := w
      obtain ⟨hv, hws⟩ := List.forall₂_cons.1 hwritten
      rw [List.map_cons, List.length_cons, List.range'_succ, List.cons.injEq] at hlocations
      obtain ⟨rfl, hlocations⟩ : location = produced.size ∧ _ := hlocations
      have hout' : out.toList = (produced.push ⟨v, produced.size⟩).toList ++ ws := by
        rw [hout, Array.toList_push, List.append_assoc, List.singleton_append]
      have hbetween : ((produced.push ⟨v, produced.size⟩).toList.map (·.name)).Nodup := by
        rw [hout', List.map_append] at hnodup
        exact hnodup.of_append_left
      refine ⟨produced.push ⟨v, produced.size⟩, produce_eq_ok_iff.2 ?_, (ih hbetween).2 ?_⟩
      · exact ⟨v, Variable.parse_eq_ok_iff_isWritten.2 hv, (nodup_map_push_iff.1 hbetween).2, rfl⟩
      · refine ⟨ws, hout', hws, ?_, hnodup⟩
        rw [hlocations, Array.size_push]

/-- A varying of the fragment stage has the number at which its name is produced. -/
theorem consume_eq_ok_iff {produced : List PlacedVariable} {text : String} {w : PlacedVariable} :
    consume produced text = .ok w ↔
      w.toVariable.IsWritten text ∧ location? produced w.name = some w.location := by
  rw [consume, Outcome.bind_eq_ok_iff]
  constructor
  · rintro ⟨v, hv, hw⟩
    cases hlocation : location? produced v.name with
    | none =>
      rw [hlocation] at hw
      contradiction
    | some location =>
      rw [hlocation] at hw
      obtain rfl := Except.ok.inj hw
      exact ⟨Variable.parse_eq_ok_iff_isWritten.1 hv, hlocation⟩
  · rintro ⟨hw, hlocation⟩
    refine ⟨w.toVariable, Variable.parse_eq_ok_iff_isWritten.2 hw, ?_⟩
    rw [hlocation]
    rfl

/-- All varyings of the fragment stage have the numbers at which their names are produced. -/
theorem mapM_consume_eq_ok_iff {produced ws : List PlacedVariable} {lines : List String} :
    lines.mapM (consume produced) = .ok ws ↔
      AreWritten (ws.map (·.toVariable)) lines ∧
        ∀ w ∈ ws, location? produced w.name = some w.location := by
  rw [Outcome.mapM_eq_ok_iff, AreWritten, List.forall₂_map_right_iff]
  simp only [consume_eq_ok_iff]
  constructor
  · intro h
    refine ⟨h.imp fun _ _ hw => hw.1, ?_⟩
    induction h with
    | nil => exact List.forall_mem_nil _
    | cons hw _ ih => exact List.forall_mem_cons.2 ⟨hw.2, ih⟩
  · rintro ⟨hwritten, hlocated⟩
    induction hwritten with
    | nil => exact .nil
    | cons hw _ ih =>
      rw [List.forall_mem_cons] at hlocated
      exact .cons ⟨hw, hlocated.1⟩ (ih hlocated.2)

/-! ## Both stages -/

/-- Each line is a varying of its stage, and both stages give a name the same number. -/
structure Paired (vertexLines fragmentLines : List String) (v : Varyings) : Prop where
  /-- The varyings of the vertex stage are its lines, in order. -/
  vertex : AreWritten (v.vertex.map (·.toVariable)) vertexLines
  /-- They are numbered in order. -/
  numbered : v.vertex.map (·.location) = List.range v.vertex.length
  /-- No two of them have one name. -/
  nodup : (v.vertex.map (·.name)).Nodup
  /-- The varyings of the fragment stage are its lines, in order. -/
  fragment : AreWritten (v.fragment.map (·.toVariable)) fragmentLines
  /-- Each has the number at which its name is produced. -/
  located : ∀ w ∈ v.fragment, location? v.vertex w.name = some w.location

/-- The varyings of two stages are paired by their names. -/
theorem pair_eq_ok_iff {vertexLines fragmentLines : List String} {v : Varyings} :
    pair vertexLines fragmentLines = .ok v ↔ Paired vertexLines fragmentLines v := by
  obtain ⟨vertex, fragment⟩ := v
  have hempty : ((#[] : Array PlacedVariable).toList.map (·.name)).Nodup := List.nodup_nil
  simp only [pair, Outcome.bind_eq_ok_iff, foldlM_produce_eq_ok_iff hempty, mapM_consume_eq_ok_iff]
  constructor
  · rintro ⟨out, ⟨ws, rfl, hvertex, hnumbered, hnodup⟩, fs, ⟨hfragment, hlocated⟩, hv⟩
    obtain ⟨rfl, rfl⟩ := Varyings.mk.inj (Except.ok.inj hv)
    exact ⟨hvertex, hnumbered.trans List.range_eq_range'.symm, hnodup, hfragment, hlocated⟩
  · rintro ⟨hvertex, hnumbered, hnodup, hfragment, hlocated⟩
    refine ⟨vertex.toArray, ⟨vertex, rfl, hvertex, ?_, hnodup⟩, fragment, ⟨hfragment, hlocated⟩,
      rfl⟩
    rw [hnumbered, List.range_eq_range']
    rfl

/-- Where no two names are the same, a name has the number of the varying of that name. -/
theorem location?_eq_some_iff {produced : List PlacedVariable}
    (h : (produced.map (·.name)).Nodup) {name : String} {location : Nat} :
    location? produced name = some location ↔
      ∃ w ∈ produced, w.name = name ∧ w.location = location := by
  simp only [location?, Option.map_eq_some_iff, find?_name_eq_some_iff h, and_assoc]

/-- Varyings are paired if all lines are varyings, those of the vertex stage have different names,
and the names of the fragment stage are among them. -/
theorem exists_paired_iff {vertexLines fragmentLines : List String} :
    (∃ v, Paired vertexLines fragmentLines v) ↔
      ∃ vs fs : List Variable, AreWritten vs vertexLines ∧ AreWritten fs fragmentLines ∧
        (vs.map (·.name)).Nodup ∧ ∀ f ∈ fs, ∃ v ∈ vs, v.name = f.name := by
  constructor
  · rintro ⟨v, h⟩
    refine ⟨_, _, h.vertex, h.fragment, ?_, ?_⟩
    · rw [List.map_map]
      exact h.nodup
    · intro f hf
      obtain ⟨w, hw, rfl⟩ := List.mem_map.1 hf
      obtain ⟨w', hw', hname, -⟩ := (location?_eq_some_iff h.nodup).1 (h.located w hw)
      exact ⟨w'.toVariable, List.mem_map_of_mem hw', hname⟩
  · rintro ⟨vs, fs, hvs, hfs, hnodup, hnames⟩
    let vertex : List PlacedVariable := vs.zipIdx.map fun p => ⟨p.1, p.2⟩
    let locate (f : Variable) : PlacedVariable := ⟨f, (location? vertex f.name).getD 0⟩
    have hvariables : vertex.map (·.toVariable) = vs := by
      rw [List.map_map]
      exact List.zipIdx_map_fst 0 vs
    have hvertex : (vertex.map (·.name)).Nodup := by
      rw [← hvariables, List.map_map] at hnodup
      exact hnodup
    refine ⟨⟨vertex, fs.map locate⟩, by rwa [hvariables], ?_, hvertex, ?_, ?_⟩
    · have hlength : vertex.length = vs.length := by rw [List.length_map, List.length_zipIdx]
      rw [List.map_map, hlength]
      exact (List.zipIdx_map_snd 0 vs).trans List.range_eq_range'.symm
    · rw [List.map_map]
      simpa [Function.comp_def, locate] using hfs
    · intro w hw
      obtain ⟨f, hf, rfl⟩ := List.mem_map.1 hw
      obtain ⟨v, hv, hname⟩ := hnames f hf
      rw [← hvariables, List.mem_map] at hv
      obtain ⟨w, hw, rfl⟩ := hv
      have hlocation : location? vertex f.name = some w.location :=
        (location?_eq_some_iff hvertex).2 ⟨w, hw, hname, rfl⟩
      show location? vertex f.name = some ((location? vertex f.name).getD 0)
      rw [hlocation]
      rfl

/-- The order in which the fragment stage declares its varyings does not matter: each of its lines
keeps its varying. -/
theorem exists_pair_of_perm {vertexLines fragmentLines fragmentLines' : List String} {v : Varyings}
    (h : pair vertexLines fragmentLines = .ok v) (hperm : fragmentLines.Perm fragmentLines') :
    ∃ v', pair vertexLines fragmentLines' = .ok v' ∧ v'.vertex = v.vertex ∧
      (fragmentLines.zip v.fragment).Perm (fragmentLines'.zip v'.fragment) := by
  obtain ⟨produced, hproduced, h⟩ := Outcome.bind_eq_ok_iff.1 h
  obtain ⟨fs, hfs, hv⟩ := Outcome.bind_eq_ok_iff.1 h
  obtain rfl := Except.ok.inj hv
  obtain ⟨fs', hfs', hzip⟩ := Outcome.exists_mapM_of_perm hperm hfs
  refine ⟨⟨produced.toList, fs'⟩, ?_, rfl, hzip⟩
  exact Outcome.bind_eq_ok_iff.2 ⟨produced, hproduced, Outcome.bind_eq_ok_iff.2 ⟨fs', hfs', rfl⟩⟩

/-- Varyings of two stages are paired exactly if all lines are varyings, those of the vertex stage
have different names, and the names of the fragment stage are among them. Then both stages give a
name one number, each stage declares its lines anew in order, with their own qualifiers, types and
names, and the order of the fragment stage does not matter. -/
theorem stages_agree (vertexLines fragmentLines : List String) :
    ((∃ v, pair vertexLines fragmentLines = .ok v) ↔
      ∃ vs fs : List Variable, AreWritten vs vertexLines ∧ AreWritten fs fragmentLines ∧
        (vs.map (·.name)).Nodup ∧ ∀ f ∈ fs, ∃ v ∈ vs, v.name = f.name) ∧
    ∀ v, pair vertexLines fragmentLines = .ok v →
      Paired vertexLines fragmentLines v ∧
      (∀ w ∈ v.fragment, ∃ w' ∈ v.vertex, w'.name = w.name ∧ w'.location = w.location) ∧
      v.vertexCode = print (v.vertex.map (·.global .out)) ∧
      v.fragmentCode = print (v.fragment.map (·.global .into)) ∧
      ∀ fragmentLines', fragmentLines.Perm fragmentLines' →
        ∃ v', pair vertexLines fragmentLines' = .ok v' ∧ v'.vertex = v.vertex ∧
          (fragmentLines.zip v.fragment).Perm (fragmentLines'.zip v'.fragment) ∧
          v'.vertexCode = v.vertexCode ∧
          v'.fragmentCode = print (v'.fragment.map (·.global .into)) := by
  have hcode : ∀ direction (ws : List PlacedVariable),
      PlacedVariable.declarations direction ws = print (ws.map (·.global direction)) :=
    fun direction ws => (PlacedVariable.print_map_global direction ws).symm
  simp only [pair_eq_ok_iff]
  refine ⟨exists_paired_iff, fun v hv => ⟨hv, fun w hw => ?_, hcode .out v.vertex,
    hcode .into v.fragment, fun fragmentLines' hperm => ?_⟩⟩
  · exact (location?_eq_some_iff hv.nodup).1 (hv.located w hw)
  · obtain ⟨v', hv', hvertex, hzip⟩ := exists_pair_of_perm (pair_eq_ok_iff.2 hv) hperm
    refine ⟨v', pair_eq_ok_iff.1 hv', hvertex, hzip, ?_, hcode .into v'.fragment⟩
    rw [vertexCode, vertexCode, hvertex]

/-- The fragment stage reads two of three varyings, in another order. -/
theorem stages_agree_litLines :
    let vertexLines := ["vec2 uv", "vec3 normal", "flat vec4 tint"]
    ∃ v, pair vertexLines ["flat vec4 tint", "vec2 uv"] = .ok v ∧
      v.fragmentCode =
        "layout(location = 2) flat in vec4 tint;\nlayout(location = 0) in vec2 uv;\n" ∧
      Paired vertexLines ["flat vec4 tint", "vec2 uv"] v ∧
      ∃ v', pair vertexLines ["vec2 uv", "flat vec4 tint"] = .ok v' ∧ v'.vertex = v.vertex ∧
        (["flat vec4 tint", "vec2 uv"].zip v.fragment).Perm
          (["vec2 uv", "flat vec4 tint"].zip v'.fragment) := by
  intro vertexLines
  have hcode : (pair vertexLines ["flat vec4 tint", "vec2 uv"]).map (·.fragmentCode) =
      .ok "layout(location = 2) flat in vec4 tint;\nlayout(location = 0) in vec2 uv;\n" := by
    decide +kernel
  obtain ⟨v, hv, hcode⟩ := Outcome.map_eq_ok_iff.1 hcode
  obtain ⟨hpaired, -, -, -, hperm⟩ := (stages_agree vertexLines _).2 v hv
  obtain ⟨v', hv', hvertex, hzip, -⟩ := hperm _ (List.Perm.swap _ _ [])
  exact ⟨v, hv, hcode, hpaired, v', hv', hvertex, hzip⟩

end Varyings

end ShaderInterface
