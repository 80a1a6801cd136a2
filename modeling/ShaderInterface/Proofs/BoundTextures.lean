import Mathlib.Data.List.Infix
import ShaderInterface.Proofs.Resources

/-!
# Textures that uniforms are bound to

A texture uniform becomes a texture and a sampler, at two slots that follow those of the uniforms
before it. `Texture.IsBound` says what becomes of one uniform, `Texture.Refused` why a uniform
cannot be bound, and `Texture.assign_binds` what becomes of a list of uniforms. With the standard
tables the declared types follow from the name of the uniform's type alone, though they are found by
way of its dimension and of what sampling it yields (`Texture.declaration_of_standard`).
-/

namespace ShaderInterface

/-- A uniform can be bound as a texture: it is no array of several elements, and the tables know the
dimension of its type. -/
def HostTables.Binds (tables : HostTables) (u : Uniform) : Prop :=
  u.arraySize ≤ 1 ∧ ∃ dimension, tables.dimension? u.typeName = some dimension

namespace Texture

/-! ## One uniform -/

/-- What sampling a texture uniform yields. That a type compares depths goes before what its name
begins with, and both go before the precision. -/
inductive Yields (tables : HostTables) (sampling : HighpSampling) (d : Declarator) :
    SampleType → Prop
  | depth (hshadow : tables.isShadowSampler d.typeName) : Yields tables sampling d .depth
  | sint (hshadow : ¬ tables.isShadowSampler d.typeName)
      (hsint : "isampler".toList <+: d.typeName.toList) : Yields tables sampling d .sint
  | uint (hshadow : ¬ tables.isShadowSampler d.typeName)
      (huint : "usampler".toList <+: d.typeName.toList) : Yields tables sampling d .uint
  | unfilterableFloat (hshadow : ¬ tables.isShadowSampler d.typeName)
      (hsint : ¬ "isampler".toList <+: d.typeName.toList)
      (huint : ¬ "usampler".toList <+: d.typeName.toList)
      (hhigh : d.precision = some .high) (hsampling : sampling = .unfilterable) :
      Yields tables sampling d .unfilterableFloat
  | float (hshadow : ¬ tables.isShadowSampler d.typeName)
      (hsint : ¬ "isampler".toList <+: d.typeName.toList)
      (huint : ¬ "usampler".toList <+: d.typeName.toList)
      (hfilterable : ¬ (d.precision = some .high ∧ sampling = .unfilterable)) :
      Yields tables sampling d .float

/-- The uniform is bound as the texture, which takes the given slot and its sampler the next. -/
structure IsBound (tables : HostTables) (sampling : HighpSampling) (slot : Nat) (u : Uniform)
    (t : Texture) : Prop where
  name : t.name = u.name
  single : u.arraySize ≤ 1
  dimension : tables.dimension? u.typeName = some t.dimension
  sampleType : Yields tables sampling u.toDeclarator t.sampleType
  visibility : t.visibility = .both
  textureSlot : t.textureSlot = slot
  samplerSlot : t.samplerSlot = slot + 1

/-- Why a uniform cannot be bound. Its array size is read before its type is looked up. -/
inductive Refused (tables : HostTables) (u : Uniform) : LinkError → Prop
  /-- It is an array of several elements. -/
  | array (harray : 1 < u.arraySize) : Refused tables u (.uniformArray u.stage u.text)
  /-- The tables do not know the type. -/
  | unknownType (hsingle : u.arraySize ≤ 1) (htype : tables.dimension? u.typeName = none) :
      Refused tables u (.unknownUniformType u.stage u.typeName u.text)

variable {tables : HostTables} {sampling : HighpSampling}

/-- No type name begins both like an integer sampler and like an unsigned one. -/
theorem not_isampler_of_usampler {cs : List Char} (h : "usampler".toList <+: cs) :
    ¬ "isampler".toList <+: cs :=
  fun h' => absurd (List.prefix_of_prefix_length_le h h' (Nat.le_refl _)) (by decide)

/-- What sampling yields is what the rules say. -/
theorem yields_iff {d : Declarator} {s : SampleType} :
    Yields tables sampling d s ↔ sampleTypeOf tables sampling d = s := by
  constructor
  · intro h
    unfold sampleTypeOf
    cases h with
    | depth hshadow => rw [if_pos hshadow]
    | sint hshadow hsint => rw [if_neg hshadow, if_pos hsint]
    | uint hshadow huint =>
      rw [if_neg hshadow, if_neg (not_isampler_of_usampler huint), if_pos huint]
    | unfilterableFloat hshadow hsint huint hhigh hsampling =>
      rw [if_neg hshadow, if_neg hsint, if_neg huint, if_pos ⟨hhigh, hsampling⟩]
    | float hshadow hsint huint hfilterable =>
      rw [if_neg hshadow, if_neg hsint, if_neg huint, if_neg hfilterable]
  · rintro rfl
    unfold sampleTypeOf
    split
    · next hshadow => exact .depth hshadow
    next hshadow =>
    split
    · next hsint => exact .sint hshadow hsint
    next hsint =>
    split
    · next huint => exact .uint hshadow huint
    next huint =>
    split
    · next hhigh => exact .unfilterableFloat hshadow hsint huint hhigh.1 hhigh.2
    · next hfilterable => exact .float hshadow hsint huint hfilterable

/-- A uniform that is bound is bound so. -/
theorem ofUniform_eq_ok_iff_isBound {slot : Nat} {u : Uniform} {t : Texture} :
    ofUniform tables sampling slot u = .ok t ↔ IsBound tables sampling slot u t := by
  rw [ofUniform_eq_ok_iff]
  constructor
  · rintro ⟨hsingle, dimension, hdimension, rfl⟩
    exact ⟨rfl, hsingle, hdimension, yields_iff.2 rfl, rfl, rfl, rfl⟩
  · intro h
    refine ⟨h.single, t.dimension, h.dimension, ?_⟩
    rw [yields_iff.1 h.sampleType, ← h.name, ← h.visibility, ← h.samplerSlot, ← h.textureSlot]

/-- A uniform that is not bound is refused. -/
theorem ofUniform_eq_error_iff {slot : Nat} {u : Uniform} {cause : LinkError} :
    ofUniform tables sampling slot u = .error cause ↔ Refused tables u cause := by
  constructor
  · intro h
    unfold ofUniform at h
    split at h
    · next harray =>
      obtain rfl := Except.error.inj h
      exact .array harray
    next hsingle =>
    split at h
    · next htype =>
      obtain rfl := Except.error.inj h
      exact .unknownType (Nat.not_lt.1 hsingle) htype
    · contradiction
  · intro h
    cases h with
    | array harray => rw [ofUniform, if_pos harray]
    | unknownType hsingle htype => rw [ofUniform, if_neg (Nat.not_lt.2 hsingle), htype]

/-- A uniform is bound if it can be. -/
theorem exists_ofUniform_iff {slot : Nat} {u : Uniform} :
    (∃ t, ofUniform tables sampling slot u = .ok t) ↔ tables.Binds u := by
  simp only [ofUniform_eq_ok_iff]
  constructor
  · rintro ⟨-, hsingle, dimension, hdimension, -⟩
    exact ⟨hsingle, dimension, hdimension⟩
  · rintro ⟨hsingle, dimension, hdimension⟩
    exact ⟨_, hsingle, dimension, hdimension, rfl⟩

/-! ## Uniforms in a row -/

/-- Uniforms are bound in a row if they are paired with textures, each of which takes the two slots
behind those of the textures before it. -/
theorem boundFrom_iff {first : Nat} {us : List Uniform} {ts : List Texture} :
    BoundFrom tables sampling first us ts ↔ ts.length = us.length ∧
      ∀ k (hu : k < us.length) (ht : k < ts.length),
        IsBound tables sampling (first + 2 * k) us[k] ts[k] := by
  induction us generalizing first ts with
  | nil =>
    constructor
    · rintro (_ | _)
      exact ⟨rfl, fun k hu => absurd hu (Nat.not_lt_zero k)⟩
    · rintro ⟨hlength, -⟩
      rw [List.length_eq_zero_iff.1 hlength]
      exact .nil first
  | cons u us ih =>
    -- the slots of the others are counted from the third on
    have hslot : ∀ k, first + 2 * (k + 1) = first + 2 + 2 * k := by
      intro k
      omega
    constructor
    · rintro (_ | ⟨head, tail⟩)
      obtain ⟨hlength, hrest⟩ := ih.1 tail
      refine ⟨congrArg (· + 1) hlength, fun k hu ht => ?_⟩
      cases k with
      | zero => exact ofUniform_eq_ok_iff_isBound.1 head
      | succ k =>
        rw [hslot]
        exact hrest k (Nat.lt_of_succ_lt_succ hu) (Nat.lt_of_succ_lt_succ ht)
    · rintro ⟨hlength, hbound⟩
      obtain ⟨t, ts, rfl⟩ := List.exists_cons_of_length_eq_add_one hlength
      refine .cons (ofUniform_eq_ok_iff_isBound.2 (hbound 0 (Nat.zero_lt_succ _)
        (Nat.zero_lt_succ _))) (ih.2 ⟨Nat.succ.inj hlength, fun k hu ht => ?_⟩)
      rw [← hslot]
      exact hbound (k + 1) (Nat.succ_lt_succ hu) (Nat.succ_lt_succ ht)

/-- Uniforms are not bound in a row if one of them is refused and none of those before it. -/
theorem assign_eq_error_iff {first : Nat} {us : List Uniform} {cause : LinkError} :
    assign tables sampling first us = .error cause ↔ ∃ front u behind, us = front ++ u :: behind ∧
      (∀ v ∈ front, tables.Binds v) ∧ Refused tables u cause := by
  rw [assign, Outcome.mapM_eq_error_iff]
  constructor
  · rintro ⟨front, line, behind, hlines, hfront, hline⟩
    refine ⟨front.map (·.1), line.1, behind.map (·.1), ?_, ?_, ofUniform_eq_error_iff.1 hline⟩
    · rw [← List.zipIdx_map_fst 0 us, hlines, List.map_append, List.map_cons]
    · rw [List.forall_mem_map]
      exact fun line hmem => exists_ofUniform_iff.1 (hfront line hmem)
  · rintro ⟨front, u, behind, rfl, hfront, hu⟩
    refine ⟨front.zipIdx, (u, 0 + front.length), behind.zipIdx (0 + front.length + 1), ?_,
      fun line hline => ?_, ofUniform_eq_error_iff.2 hu⟩
    · rw [List.zipIdx_append, List.zipIdx_cons]
    · exact exists_ofUniform_iff.2 (hfront _ (List.fst_mem_of_mem_zipIdx hline))

/-! ## Declared types -/

/-- The text with the first occurrence of some word replaced by another. -/
def replaceWord (word other : List Char) : List Char → List Char
  | [] => []
  | c :: cs =>
    if word <+: c :: cs then other ++ (c :: cs).drop word.length
    else c :: replaceWord word other cs

/-- A type compares depths by its name. -/
def namesShadow (typeName : String) : Prop :=
  "Shadow".toList <:+ typeName.toList
deriving Decidable

/-- The type of the texture without its sampler: instead of a sampler the name tells a texture, and
nothing of shadows. -/
def separateType (typeName : String) : String :=
  String.ofList (replaceWord "sampler".toList "texture".toList
    ((typeName.toList.dropSuffix? "Shadow".toList).getD typeName.toList))

/-- The type of the sampler without its texture. -/
def separateSampler (typeName : String) : String :=
  if namesShadow typeName then "samplerShadow" else "sampler"

/-- The lines that declare a texture uniform as a texture at a slot of a group and a sampler at the
next one. -/
def separateLines (group slot : Nat) (u : Uniform) : String :=
  resourceLine group slot (separateType u.typeName) u.name ++
    resourceLine group (slot + 1) (separateSampler u.typeName) (u.name ++ "_sampler")

/-- The dimension that is found for a type is an entry of the tables. -/
theorem mem_of_dimension?_eq_some {typeName : String} {dimension : TextureDimension}
    (h : tables.dimension? typeName = some dimension) :
    (typeName, dimension) ∈ tables.dimensions := by
  obtain ⟨before, behind, hentries, -⟩ := List.lookup_eq_some_iff.1 h
  rw [hentries]
  exact List.mem_append_right before List.mem_cons_self

/-- What the standard tables say of a texture type stands in its name: whether it compares depths,
which the integer types do not, and its dimension behind the letter for integers. -/
theorem name_of_standard {typeName : String} {dimension : TextureDimension}
    (h : HostTables.standard.dimension? typeName = some dimension) :
    (HostTables.standard.isShadowSampler typeName ↔ namesShadow typeName) ∧
      (namesShadow typeName → ¬ "isampler".toList <+: typeName.toList ∧
        ¬ "usampler".toList <+: typeName.toList) ∧
      separateType typeName = (if "isampler".toList <+: typeName.toList then "i"
        else if "usampler".toList <+: typeName.toList then "u" else "") ++ dimension.typeName := by
  have hall : ∀ entry ∈ HostTables.standardDimensions,
      (HostTables.standard.isShadowSampler entry.1 ↔ namesShadow entry.1) ∧
        (namesShadow entry.1 → ¬ "isampler".toList <+: entry.1.toList ∧
          ¬ "usampler".toList <+: entry.1.toList) ∧
        separateType entry.1 = (if "isampler".toList <+: entry.1.toList then "i"
          else if "usampler".toList <+: entry.1.toList then "u" else "") ++ entry.2.typeName := by
    decide +kernel
  exact hall _ (mem_of_dimension?_eq_some h)

example : separateType "usampler2DArray" = "utexture2DArray" := by decide +kernel

example : separateType "samplerCubeShadow" = "textureCube" := by decide +kernel

/-- With the standard tables, the types that are declared for a texture are those that the name of
the uniform's type tells. -/
theorem types_of_standard {d : Declarator} {dimension : TextureDimension} {s : SampleType}
    (hdimension : HostTables.standard.dimension? d.typeName = some dimension)
    (hyields : Yields .standard sampling d s) :
    s.textureStem ++ dimension.typeName = separateType d.typeName ∧
      s.samplerType = separateSampler d.typeName := by
  obtain ⟨hshadow_iff, hfloats, htype⟩ := name_of_standard hdimension
  rw [htype, separateSampler]
  cases hyields with
  | depth hshadow =>
    have hname := hshadow_iff.1 hshadow
    rw [if_neg (hfloats hname).1, if_neg (hfloats hname).2, if_pos hname]
    exact ⟨rfl, rfl⟩
  | sint hshadow hsint =>
    rw [if_pos hsint, if_neg (hshadow_iff.not.1 hshadow)]
    exact ⟨rfl, rfl⟩
  | uint hshadow huint =>
    rw [if_neg (not_isampler_of_usampler huint), if_pos huint, if_neg (hshadow_iff.not.1 hshadow)]
    exact ⟨rfl, rfl⟩
  | unfilterableFloat hshadow hsint huint | float hshadow hsint huint =>
    rw [if_neg hsint, if_neg huint, if_neg (hshadow_iff.not.1 hshadow)]
    exact ⟨rfl, rfl⟩

/-- With the standard tables, a uniform that is bound is declared by the name of its type. -/
theorem declaration_of_standard {slot : Nat} {u : Uniform} {t : Texture}
    (h : IsBound .standard sampling slot u t) (group : Nat) :
    t.declaration group = separateLines group slot u := by
  obtain ⟨htexture, hsampler⟩ := types_of_standard h.dimension h.sampleType
  rw [declaration, samplerName, htexture, hsampler, h.name, h.textureSlot, h.samplerSlot,
    separateLines]

/-- With the standard tables, the declarations of a binding table are those of its uniforms. -/
theorem BoundFrom.textureDeclarations_of_standard {first : Nat} {us : List Uniform}
    {ts : List Texture} (h : BoundFrom .standard sampling first us ts) (group : Nat)
    (buffer : Option BufferBinding) :
    BindingTable.textureDeclarations ⟨group, buffer, ts⟩ =
      String.join (us.mapIdx fun k u => separateLines group (first + 2 * k) u) := by
  rw [boundFrom_iff] at h
  obtain ⟨hlength, hbound⟩ := h
  refine congrArg String.join (List.ext_getElem (by simp [hlength]) fun k ht hu => ?_)
  rw [List.getElem_map, List.getElem_mapIdx]
  exact declaration_of_standard (hbound k _ _) group

/-- A list of uniforms is bound if each of them can be, and else refused for the first that cannot.
If it is bound, the `k`-th uniform is bound to the slot `first + 2 * k` and the one behind it. With
the standard tables, the binding table then declares each uniform by the name of its type, as a
texture and a sampler at these slots. -/
theorem assign_binds (tables : HostTables) (sampling : HighpSampling) (first : Nat)
    (us : List Uniform) :
    ((∃ ts, assign tables sampling first us = .ok ts) ↔ ∀ u ∈ us, tables.Binds u) ∧
    (∀ cause, assign tables sampling first us = .error cause ↔
      ∃ front u behind, us = front ++ u :: behind ∧ (∀ v ∈ front, tables.Binds v) ∧
        Refused tables u cause) ∧
    (∀ ts, assign tables sampling first us = .ok ts ↔ ts.length = us.length ∧
      ∀ k (hu : k < us.length) (ht : k < ts.length),
        IsBound tables sampling (first + 2 * k) us[k] ts[k]) ∧
    ∀ ts, assign .standard sampling first us = .ok ts → ∀ group buffer,
      BindingTable.textureDeclarations ⟨group, buffer, ts⟩ =
        String.join (us.mapIdx fun k u => separateLines group (first + 2 * k) u) := by
  refine ⟨?_, fun cause => assign_eq_error_iff, fun ts => ?_, fun ts h group buffer => ?_⟩
  · simp only [assign_eq_ok_iff]
    exact exists_boundFrom_iff
  · rw [assign_eq_ok_iff, boundFrom_iff]
  · exact (assign_eq_ok_iff.1 h).textureDeclarations_of_standard group buffer

/-- Uniforms of all kinds of samplers. -/
def mixedUniforms : List Uniform :=
  [⟨⟨some .high, "sampler2DShadow", "shadows", 0⟩, "highp sampler2DShadow shadows", .fragment⟩,
    ⟨⟨some .high, "isampler3D", "cells", 1⟩, "highp isampler3D cells[1]", .fragment⟩,
    ⟨⟨some .high, "samplerCube", "sky", 0⟩, "highp samplerCube sky", .vertex⟩,
    ⟨⟨none, "usampler2DArray", "ids", 0⟩, "usampler2DArray ids", .fragment⟩]

/-- The uniforms are bound to the slots from 1 on. -/
theorem assign_binds_mixedUniforms :
    ∃ ts, assign .standard .unfilterable 1 mixedUniforms = .ok ts ∧
      ts.map (fun t => (t.sampleType, t.textureSlot)) =
        [(.depth, 1), (.sint, 3), (.unfilterableFloat, 5), (.uint, 7)] ∧
      BindingTable.textureDeclarations ⟨2, none, ts⟩ =
        String.join (mixedUniforms.mapIdx fun k u => separateLines 2 (1 + 2 * k) u) := by
  have hbound : (assign .standard .unfilterable 1 mixedUniforms).map
      (fun ts => ts.map fun t => (t.sampleType, t.textureSlot)) =
        .ok [(.depth, 1), (.sint, 3), (.unfilterableFloat, 5), (.uint, 7)] := by
    decide +kernel
  obtain ⟨ts, hts, hslots⟩ := Outcome.map_eq_ok_iff.1 hbound
  exact ⟨ts, hts, hslots,
    (assign_binds .standard .unfilterable 1 mixedUniforms).2.2.2 ts hts 2 none⟩

end Texture

end ShaderInterface
