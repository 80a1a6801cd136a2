import ShaderInterface.Proofs.Outcome
import ShaderInterface.Resource.Group

/-!
# What a resource group is made of

A group is made if the host tables support each of its uniforms. Its buffer then has a field for
each value and its binding table a texture for each texture uniform, in order
(`ResourceGroup.ofParts_eq_ok_iff`). The fields of a buffer are also given by a plain recursion,
`BufferLayout.fieldsFrom`, in which each begins where those before it end.
-/

namespace ShaderInterface

/-- The tables know the type of what is declared, with a size if it is a value, and it is not an
array of several elements. A type has a size if the word for its bytes is not 0, which is to say
that it has elements, as long as those bytes fit into a word (`Member.wordBytes_eq_zero_iff`). -/
def HostTables.Supports (tables : HostTables) (d : Declarator) : Prop :=
  d.arraySize ≤ 1 ∧
    if d.isTexture then ∃ dimension, tables.dimension? d.typeName = some dimension
    else ∃ count, tables.elementCount? d.typeName = some count ∧ Member.wordBytes count ≠ 0

/-! ## Buffers -/

/-- The word for the bytes of some elements is their number modulo `2 ^ 32`. -/
theorem Member.wordBytes_eq (count : Nat) : wordBytes count = .ofNat (count * elementBytes) :=
  (UInt32.ofNat_mul count elementBytes).symm

/-- Elements whose bytes fit into a word take none of them only if there are no elements. -/
theorem Member.wordBytes_eq_zero_iff {count : Nat} (h : count * elementBytes < UInt32.size) :
    wordBytes count = 0 ↔ count = 0 := by
  rw [wordBytes_eq, ← UInt32.toNat_inj, UInt32.toNat_ofNat_of_lt' h, UInt32.toNat_zero]
  exact Nat.mul_eq_zero.trans (or_iff_left (Nat.succ_ne_zero 3))

/-- If the bytes of its type fit into a word, a value is supported if its type is known and has
elements, and it is not an array of several elements. -/
theorem HostTables.supports_iff {tables : HostTables} {d : Declarator}
    (hfits : ∀ count, tables.elementCount? d.typeName = some count →
      count * Member.elementBytes < UInt32.size) :
    tables.Supports d ↔ d.arraySize ≤ 1 ∧
      if d.isTexture then ∃ dimension, tables.dimension? d.typeName = some dimension
      else ∃ count, tables.elementCount? d.typeName = some count ∧ count ≠ 0 := by
  have hsize :
      (∃ count, tables.elementCount? d.typeName = some count ∧ Member.wordBytes count ≠ 0) ↔
        ∃ count, tables.elementCount? d.typeName = some count ∧ count ≠ 0 :=
    exists_congr fun count => and_congr_right fun hcount =>
      not_congr (Member.wordBytes_eq_zero_iff (hfits count hcount))
  rw [Supports, hsize]

/-- No elements take no bytes. -/
theorem Member.ne_zero_of_wordBytes_ne_zero {count : Nat} (h : wordBytes count ≠ 0) :
    count ≠ 0 := by
  rintro rfl
  exact h rfl

/-- A uniform becomes a member if it is no array of several elements and its type has a size. -/
theorem Member.ofUniform_eq_ok_iff {tables : HostTables} {u : Uniform} {m : Member} :
    ofUniform tables u = .ok m ↔ u.arraySize ≤ 1 ∧
      tables.elementCount? u.typeName = some m.elementCount ∧ wordBytes m.elementCount ≠ 0 ∧
        m.toDeclarator = u.toDeclarator := by
  obtain ⟨d, count⟩ := m
  unfold ofUniform
  cases tables.elementCount? u.typeName with
  | none => simp
  | some count' =>
    dsimp only
    split
    · next harray => exact iff_of_false nofun fun h => absurd h.1 (Nat.not_le.2 harray)
    · next harray =>
      rw [and_iff_right (Nat.not_lt.1 harray)]
      split
      · next hzero =>
        refine iff_of_false nofun ?_
        rintro ⟨hcount, hne, -⟩
        exact hne (Option.some.inj hcount ▸ hzero)
      · next hzero =>
        simp only [Except.ok.injEq, Member.mk.injEq, Option.some.injEq]
        constructor
        · rintro ⟨rfl, rfl⟩
          exact ⟨rfl, hzero, rfl⟩
        · rintro ⟨rfl, -, rfl⟩
          exact ⟨rfl, rfl⟩

/-- A uniform becomes a member if its type has a size. -/
theorem Member.exists_ofUniform_eq_ok_iff {tables : HostTables} {u : Uniform} :
    (∃ m, ofUniform tables u = .ok m) ↔ u.arraySize ≤ 1 ∧
      ∃ count, tables.elementCount? u.typeName = some count ∧ wordBytes count ≠ 0 := by
  simp only [ofUniform_eq_ok_iff]
  constructor
  · rintro ⟨m, harray, hcount, hne, -⟩
    exact ⟨harray, m.elementCount, hcount, hne⟩
  · rintro ⟨harray, count, hcount, hne⟩
    exact ⟨⟨u.toDeclarator, count⟩, harray, hcount, hne, rfl⟩

/-- Why a uniform is no member of a buffer. Its type is looked up before its array size is read,
and the size of the type comes last. -/
inductive Member.Refused (tables : HostTables) (u : Uniform) : LinkError → Prop
  /-- The tables do not know the type. -/
  | unknownType (hcount : tables.elementCount? u.typeName = none) :
      Refused tables u (.unknownUniformType u.stage u.typeName u.text)
  /-- It is an array of several elements. -/
  | array {count : Nat} (hcount : tables.elementCount? u.typeName = some count)
      (harray : 1 < u.arraySize) : Refused tables u (.uniformArray u.stage u.text)
  /-- Its type has no elements, or so many that their bytes come to 0 in a word. -/
  | sizeless {count : Nat} (hcount : tables.elementCount? u.typeName = some count)
      (hsize : wordBytes count = 0) (hsingle : u.arraySize ≤ 1) :
      Refused tables u (.sizelessUniform u.name u.typeName)

/-- A uniform that does not become a member is refused. -/
theorem Member.ofUniform_eq_error_iff {tables : HostTables} {u : Uniform} {cause : LinkError} :
    ofUniform tables u = .error cause ↔ Refused tables u cause := by
  constructor
  · intro h
    unfold ofUniform at h
    split at h
    · next hcount =>
      obtain rfl := Except.error.inj h
      exact .unknownType hcount
    next count hcount =>
    split at h
    · next harray =>
      obtain rfl := Except.error.inj h
      exact .array hcount harray
    next harray =>
    split at h
    · next hzero =>
      obtain rfl := Except.error.inj h
      exact .sizeless hcount hzero (Nat.not_lt.1 harray)
    · contradiction
  · intro h
    cases h with
    | unknownType hcount => rw [ofUniform, hcount]
    | array hcount harray => simp only [ofUniform, hcount, if_pos harray]
    | sizeless hcount hsize hsingle =>
      simp only [ofUniform, hcount, if_neg (Nat.not_lt.2 hsingle), if_pos hsize]

namespace BufferLayout

/-- The members placed one after the other, the first behind the byte `stop`. -/
def fieldsFrom (stop : Nat) : List Member → List Field
  | [] => []
  | m :: ms =>
    let field : Field := ⟨m, roundUp stop m.alignment⟩
    field :: fieldsFrom field.stop ms

/-- The byte behind the last of the given fields, or behind none. -/
def stopOf (fields : List Field) : Nat :=
  (fields.getLast?.map Field.stop).getD 0

/-- Members are placed behind those placed before. -/
theorem foldl_place (ms : List Member) (placed : Array Field) :
    (ms.foldl place placed).toList = placed.toList ++ fieldsFrom (stopOf placed.toList) ms := by
  induction ms generalizing placed with
  | nil => exact (List.append_nil _).symm
  | cons m ms ih =>
    rw [List.foldl_cons, ih, place, Array.toList_push, List.append_assoc]
    simp [fieldsFrom, stopOf, Array.back?, List.getLast?_eq_getElem?]

/-- The first member is placed at the beginning of the buffer. -/
theorem fields_ofMembers (ms : List Member) : (ofMembers ms).fields = fieldsFrom 0 ms := by
  rw [ofMembers, foldl_place]
  rfl

/-- Each member becomes a field. -/
theorem map_toMember_fieldsFrom (stop : Nat) (ms : List Member) :
    (fieldsFrom stop ms).map (·.toMember) = ms := by
  induction ms generalizing stop with
  | nil => rfl
  | cons m ms ih => rw [fieldsFrom, List.map_cons, ih]

/-- Fields are declared like the members that they are. -/
theorem map_toDeclarator_fieldsFrom (stop : Nat) (ms : List Member) :
    (fieldsFrom stop ms).map (·.toDeclarator) = ms.map (·.toDeclarator) := by
  conv_rhs => rw [← map_toMember_fieldsFrom stop ms, List.map_map]
  rfl

/-- A list of members has a buffer unless it is empty. -/
def ofMembers? (ms : List Member) : Option BufferLayout :=
  if ms = [] then none else some (ofMembers ms)

/-- Uniforms are laid out if each becomes a member. -/
theorem ofUniforms_eq_ok_iff {tables : HostTables} {us : List Uniform}
    {layout : Option BufferLayout} :
    ofUniforms tables us = .ok layout ↔
      ∃ ms, us.mapM (Member.ofUniform tables) = .ok ms ∧ layout = ofMembers? ms := by
  simp only [ofUniforms, Outcome.bind_eq_ok_iff, ofMembers?, List.isEmpty_iff]
  exact exists_congr fun ms => and_congr_right fun _ =>
    ⟨fun h => (Except.ok.inj h).symm, fun h => h ▸ rfl⟩

/-- Members are declared like the uniforms that they were. -/
theorem map_toDeclarator_of_mapM {tables : HostTables} {us : List Uniform} {ms : List Member}
    (h : us.mapM (Member.ofUniform tables) = .ok ms) :
    ms.map (·.toDeclarator) = us.map (·.toDeclarator) := by
  induction Outcome.mapM_eq_ok_iff.1 h with
  | nil => rfl
  | cons hm hrest ih =>
    rw [List.map_cons, List.map_cons, ih (Outcome.mapM_eq_ok_iff.2 hrest),
      (Member.ofUniform_eq_ok_iff.1 hm).2.2.2]

end BufferLayout

/-! ## Textures -/

namespace Texture

variable {tables : HostTables} {sampling : HighpSampling}

/-- A texture uniform is bound if it is no array of several elements and its type has a
dimension. -/
theorem ofUniform_eq_ok_iff {slot : Nat} {u : Uniform} {t : Texture} :
    ofUniform tables sampling slot u = .ok t ↔ u.arraySize ≤ 1 ∧
      ∃ dimension, tables.dimension? u.typeName = some dimension ∧
        t = ⟨u.name, sampleTypeOf tables sampling u.toDeclarator, dimension, .both, slot,
          slot + 1⟩ := by
  unfold ofUniform
  split
  · next harray => exact iff_of_false nofun fun h => absurd h.1 (Nat.not_le.2 harray)
  · next harray =>
    rw [and_iff_right (Nat.not_lt.1 harray)]
    cases tables.dimension? u.typeName with
    | none => simp
    | some dimension => simp [eq_comm]

/-- The textures of the given uniforms, bound to the slots from `first` on. -/
inductive BoundFrom (tables : HostTables) (sampling : HighpSampling) :
    Nat → List Uniform → List Texture → Prop
  | nil (first : Nat) : BoundFrom tables sampling first [] []
  | cons {first : Nat} {u : Uniform} {us : List Uniform} {t : Texture} {ts : List Texture}
      (head : ofUniform tables sampling first u = .ok t)
      (tail : BoundFrom tables sampling (first + 2) us ts) :
      BoundFrom tables sampling first (u :: us) (t :: ts)

/-- Texture uniforms are bound one after the other. -/
theorem assign_eq_ok_iff {first : Nat} {us : List Uniform} {ts : List Texture} :
    assign tables sampling first us = .ok ts ↔ BoundFrom tables sampling first us ts := by
  suffices hfrom : ∀ k, (us.zipIdx k).mapM
      (fun line => ofUniform tables sampling (first + 2 * line.2) line.1) = .ok ts ↔
        BoundFrom tables sampling (first + 2 * k) us ts from hfrom 0
  induction us generalizing ts with
  | nil =>
    intro k
    rw [List.zipIdx_nil, Outcome.mapM_eq_ok_iff, List.forall₂_nil_left_iff]
    exact ⟨fun h => h ▸ .nil _, fun h => by cases h; rfl⟩
  | cons u us ih =>
    intro k
    rw [List.zipIdx_cons, Outcome.mapM_eq_ok_iff, List.forall₂_cons_left_iff]
    constructor
    · rintro ⟨t, ts, ht, hts, rfl⟩
      exact .cons ht ((ih (k + 1)).1 (Outcome.mapM_eq_ok_iff.2 hts))
    · rintro (_ | ⟨ht, hts⟩)
      exact ⟨_, _, ht, Outcome.mapM_eq_ok_iff.1 ((ih (k + 1)).2 hts), rfl⟩

/-- Texture uniforms can be bound if each of them can. -/
theorem exists_boundFrom_iff {us : List Uniform} {first : Nat} :
    (∃ ts, BoundFrom tables sampling first us ts) ↔
      ∀ u ∈ us, u.arraySize ≤ 1 ∧ ∃ dimension, tables.dimension? u.typeName = some dimension := by
  simp only [← assign_eq_ok_iff, assign, Outcome.exists_mapM_eq_ok_iff, ofUniform_eq_ok_iff]
  conv_rhs => rw [← List.zipIdx_map_fst 0 us, List.forall_mem_map]
  refine forall₂_congr fun line _ => ?_
  constructor
  · rintro ⟨-, harray, dimension, hdimension, -⟩
    exact ⟨harray, dimension, hdimension⟩
  · rintro ⟨harray, dimension, hdimension⟩
    exact ⟨_, harray, dimension, hdimension, rfl⟩

/-- What a texture uniform yields. -/
theorem BoundFrom.map_eq {first : Nat} {us : List Uniform} {ts : List Texture}
    (h : BoundFrom tables sampling first us ts) :
    ts.map (fun t => (t.name, some t.dimension, t.sampleType)) = us.map fun u =>
      (u.name, tables.dimension? u.typeName, sampleTypeOf tables sampling u.toDeclarator) := by
  induction h with
  | nil first => rfl
  | cons head tail ih =>
    obtain ⟨-, dimension, hdimension, rfl⟩ := ofUniform_eq_ok_iff.1 head
    rw [List.map_cons, List.map_cons, ih, hdimension]

end Texture

/-! ## Groups -/

namespace ResourceGroup

variable {tables : HostTables} {sampling : HighpSampling} {group : Nat} {name : String}

/-- The fields of the group's buffer, if it has one. -/
def fields (g : ResourceGroup) : List Field :=
  (g.layout.map (·.fields)).getD []

/-- The fields of a group are its members, placed from the beginning of the buffer on. -/
theorem fields_ofMembers? (ms : List Member) (bindings : BindingTable) :
    fields ⟨name, BufferLayout.ofMembers? ms, bindings⟩ = BufferLayout.fieldsFrom 0 ms := by
  rw [fields, BufferLayout.ofMembers?]
  split
  · next h => rw [h]; rfl
  · exact BufferLayout.fields_ofMembers ms

/-- A group is made of a buffer for the values and of textures behind it. -/
theorem ofParts_eq_ok_iff {values textures : List Uniform} {g : ResourceGroup} :
    ofParts tables sampling group name values textures = .ok g ↔
      ∃ ms, values.mapM (Member.ofUniform tables) = .ok ms ∧
      ∃ ts, Texture.BoundFrom tables sampling (if ms = [] then 0 else 1) textures ts ∧
        g = ⟨name, BufferLayout.ofMembers? ms,
          ⟨group, (BufferLayout.ofMembers? ms).map (bufferBinding name), ts⟩⟩ := by
  have hfirst : ∀ ms, BindingTable.firstTextureSlot
      ⟨group, (BufferLayout.ofMembers? ms).map (bufferBinding name), []⟩ =
        if ms = [] then 0 else 1 := by
    intro ms
    by_cases h : ms = []
    · simp [BufferLayout.ofMembers?, BindingTable.firstTextureSlot, BindingTable.bufferSlot, h]
    · simp [BufferLayout.ofMembers?, BindingTable.firstTextureSlot, BindingTable.bufferSlot, h]
  simp only [ofParts, Outcome.bind_eq_ok_iff, BufferLayout.ofUniforms_eq_ok_iff,
    Texture.assign_eq_ok_iff]
  constructor
  · rintro ⟨-, ⟨ms, hms, rfl⟩, ts, hts, hg⟩
    rw [hfirst] at hts
    exact ⟨ms, hms, ts, hts, (Except.ok.inj hg).symm⟩
  · rintro ⟨ms, hms, ts, hts, rfl⟩
    rw [← hfirst] at hts
    exact ⟨_, ⟨ms, hms, rfl⟩, ts, hts, rfl⟩

/-- A group is made of uniforms if the tables support all of them. -/
theorem exists_ofUniforms_eq_ok_iff {us : List Uniform} :
    (∃ g, ofUniforms tables sampling group name us = .ok g) ↔
      ∀ u ∈ us, tables.Supports u.toDeclarator := by
  have hvalues : (∃ ms, (us.filter (!·.isTexture)).mapM (Member.ofUniform tables) = .ok ms) ↔
      ∀ u ∈ us, ¬ u.isTexture → tables.Supports u.toDeclarator := by
    rw [Outcome.exists_mapM_eq_ok_iff, List.forall_mem_filter]
    simp only [Bool.not_eq_true', Member.exists_ofUniform_eq_ok_iff, Bool.not_eq_true]
    refine forall₂_congr fun u _ => forall_congr' fun h => ?_
    rw [HostTables.Supports, if_neg (Bool.eq_false_iff.1 h)]
  have htextures : ∀ first, (∃ ts, Texture.BoundFrom tables sampling first
      (us.filter (·.isTexture)) ts) ↔ ∀ u ∈ us, u.isTexture → tables.Supports u.toDeclarator := by
    intro first
    rw [Texture.exists_boundFrom_iff, List.forall_mem_filter]
    refine forall₂_congr fun u _ => forall_congr' fun h => ?_
    rw [HostTables.Supports, if_pos h]
  simp only [ofUniforms, ofParts_eq_ok_iff]
  constructor
  · rintro ⟨-, ms, hms, ts, hts, -⟩ u hu
    by_cases h : u.isTexture
    · exact (htextures _).1 ⟨ts, hts⟩ u hu h
    · exact hvalues.1 ⟨ms, hms⟩ u hu h
  · intro h
    obtain ⟨ms, hms⟩ := hvalues.2 fun u hu _ => h u hu
    obtain ⟨ts, hts⟩ := (htextures _).2 fun u hu _ => h u hu
    exact ⟨_, ms, hms, ts, hts, rfl⟩

end ResourceGroup

end ShaderInterface
