import Mathlib.Order.CompletePartialOrder
import Mathlib.Order.Interval.Set.Disjoint
import ShaderInterface.Proofs.Std140

/-!
# Packed buffers

Whatever sizes the host tables give to types, the fields of a buffer are packed: each begins at the
first multiple of its alignment behind the field before it, so that no two fields share a byte
(`BufferLayout.Packed`). `BufferLayout.packed_or_refused` says that uniforms are laid out if none of
them is unfit for a buffer, and are refused for the first one that is.
-/

namespace ShaderInterface

open Std140 (IsFirstMultiple isFirstMultiple_roundUp placeOf)

/-! ## Members -/

namespace Member

variable {tables : HostTables} {u : Uniform} {m : Member}

/-- The tables do not know the type of the uniform, or it is an array of several elements, or its
type has no size: the word for the bytes of its elements is 0. As long as these fit into a word,
that is a type without elements (`unfit_iff`). -/
def Unfit (tables : HostTables) (u : Uniform) : Prop :=
  tables.elementCount? u.typeName = none ∨ 1 < u.arraySize ∨
    ∃ count, tables.elementCount? u.typeName = some count ∧ wordBytes count = 0

/-- If the bytes of its type fit into a word, a uniform is unfit if its type is unknown or has no
elements, or it is an array of several elements. -/
theorem unfit_iff (hfits : ∀ count, tables.elementCount? u.typeName = some count →
      count * elementBytes < UInt32.size) :
    Unfit tables u ↔ tables.elementCount? u.typeName = none ∨ 1 < u.arraySize ∨
      tables.elementCount? u.typeName = some 0 := by
  refine or_congr_right (or_congr_right ?_)
  constructor
  · rintro ⟨count, hcount, hsize⟩
    rw [hcount, (wordBytes_eq_zero_iff (hfits count hcount)).1 hsize]
  · intro hcount
    exact ⟨0, hcount, rfl⟩

/-- The uniforms that are refused are those that are unfit. -/
theorem exists_refused_iff : (∃ cause, Refused tables u cause) ↔ Unfit tables u := by
  constructor
  · rintro ⟨cause, hcount | ⟨-, harray⟩ | ⟨hcount, hsize, -⟩⟩
    · exact .inl hcount
    · exact .inr (.inl harray)
    · exact .inr (.inr ⟨_, hcount, hsize⟩)
  · intro h
    cases hcount : tables.elementCount? u.typeName with
    | none => exact ⟨_, .unknownType hcount⟩
    | some count =>
      by_cases harray : 1 < u.arraySize
      · exact ⟨_, .array hcount harray⟩
      · obtain hnone | harray' | ⟨count', hcount', hsize⟩ := h
        · rw [hcount] at hnone
          contradiction
        · exact absurd harray' harray
        · exact ⟨_, .sizeless hcount' hsize (Nat.not_lt.1 harray)⟩

/-- A uniform becomes a member unless it is unfit. -/
theorem exists_ofUniform_iff_not_unfit :
    (∃ m, ofUniform tables u = .ok m) ↔ ¬ Unfit tables u := by
  simp only [← exists_refused_iff, ← ofUniform_eq_error_iff]
  cases ofUniform tables u with
  | ok m => simp
  | error cause => simp

/-- A member with elements takes some bytes, also where they are rounded up. -/
theorem byteSize_pos (h : m.elementCount ≠ 0) : 0 < m.byteSize := by
  have hsize : 0 < m.elementCount * elementBytes :=
    Nat.mul_pos (Nat.pos_of_ne_zero h) (Nat.succ_pos 3)
  unfold byteSize
  split
  · exact hsize
  · exact Nat.lt_of_lt_of_le hsize (le_roundUp (Nat.succ_pos 15) _)

/-- A member with elements is aligned to 4, 8 or 16 bytes: a size of at most 8 bytes is that of one
element or of two. -/
theorem alignment_eq (h : m.elementCount ≠ 0) :
    m.alignment = 4 ∨ m.alignment = 8 ∨ m.alignment = 16 := by
  unfold alignment
  split
  · exact .inr (.inr rfl)
  · next hsmall =>
    have hsingle : m.arraySize = 0 := by omega
    have hsize : m.byteSize = m.elementCount * 4 := by
      rw [byteSize, if_pos hsingle]
      rfl
    omega

/-- Offsets are multiples of a positive number. -/
theorem alignment_pos (h : m.elementCount ≠ 0) : 0 < m.alignment := by
  have halignment := alignment_eq h
  omega

end Member

/-! ## Fields -/

/-- The bytes of a field. -/
def Field.bytes (f : Field) : Set Nat :=
  Set.Ico f.byteOffset f.stop

namespace BufferLayout

/-- Members behind others are placed behind the end of those. -/
theorem fieldsFrom_append (start : Nat) (ms ms' : List Member) :
    fieldsFrom start (ms ++ ms') = fieldsFrom start ms ++ fieldsFrom (endFrom start ms) ms' := by
  induction ms generalizing start with
  | nil => rfl
  | cons m ms ih =>
    rw [List.cons_append, fieldsFrom, ih, endFrom_cons]
    rfl

/-- The first of the members become the first of the fields. -/
theorem fieldsFrom_take (start n : Nat) (ms : List Member) :
    fieldsFrom start (ms.take n) = (fieldsFrom start ms).take n := by
  induction ms generalizing start n with
  | nil => rw [List.take_nil, fieldsFrom, List.take_nil]
  | cons m ms ih =>
    cases n with
    | zero => rfl
    | succ n => rw [List.take_succ_cons, fieldsFrom, fieldsFrom, List.take_succ_cons, ih]

/-- There are as many fields as members. -/
theorem length_fieldsFrom (start : Nat) (ms : List Member) :
    (fieldsFrom start ms).length = ms.length := by
  rw [← List.length_map (·.toMember), map_toMember_fieldsFrom]

/-- A field begins at the first multiple of its alignment behind the fields in front of it. -/
theorem byteOffset_eq_of_fieldsFrom_eq {ms : List Member} {front behind : List Field} {f : Field}
    (h : fieldsFrom 0 ms = front ++ f :: behind) :
    f.byteOffset = roundUp (stopOf front) f.alignment := by
  have hms : ms = front.map (·.toMember) ++ f.toMember :: behind.map (·.toMember) := by
    rw [← map_toMember_fieldsFrom 0 ms, h, List.map_append, List.map_cons]
  rw [hms, fieldsFrom_append, fieldsFrom] at h
  obtain ⟨hfront, hrest⟩ := List.append_inj h (by rw [length_fieldsFrom, List.length_map])
  have hstop : endFrom 0 (front.map (·.toMember)) = stopOf front := by
    rw [endFrom, hfront, stopOf]
  rw [← (List.cons.inj hrest).1, hstop]

section

variable {ms : List Member} (hms : ∀ m ∈ ms, m.elementCount ≠ 0)

include hms

/-- No field begins in front of the byte behind which the members are placed. -/
theorem le_byteOffset_of_mem_fieldsFrom {start : Nat} {f : Field} (hf : f ∈ fieldsFrom start ms) :
    start ≤ f.byteOffset := by
  induction ms generalizing start with
  | nil => contradiction
  | cons m ms ih =>
    rw [List.forall_mem_cons] at hms
    have hfirst : start ≤ roundUp start m.alignment := le_roundUp (Member.alignment_pos hms.1) start
    rw [fieldsFrom, List.mem_cons] at hf
    rcases hf with rfl | hf
    · exact hfirst
    · have hrest := ih hms.2 hf
      simp only [Field.stop] at hrest
      omega

/-- Each field ends where the fields behind it begin, or in front of that. -/
theorem pairwise_stop_le (start : Nat) :
    (fieldsFrom start ms).Pairwise fun f g => f.stop ≤ g.byteOffset := by
  induction ms generalizing start with
  | nil => exact .nil
  | cons m ms ih =>
    rw [List.forall_mem_cons] at hms
    rw [fieldsFrom, List.pairwise_cons]
    exact ⟨fun g hg => le_byteOffset_of_mem_fieldsFrom hms.2 hg, ih hms.2 _⟩

/-- Each field takes some bytes. -/
theorem byteOffset_lt_stop_of_mem_fieldsFrom {start : Nat} {f : Field}
    (hf : f ∈ fieldsFrom start ms) : f.byteOffset < f.stop := by
  have hmem : f.toMember ∈ ms := by
    rw [← map_toMember_fieldsFrom start ms]
    exact List.mem_map_of_mem hf
  exact Nat.lt_add_of_pos_right (Member.byteSize_pos (hms _ hmem))

end

/-! ## Layouts -/

/-- The fields of a buffer for the given uniforms are packed. -/
structure Packed (tables : HostTables) (us : List Uniform) (layout : BufferLayout) : Prop where
  /-- There is one field for each uniform, in order, of the size that the tables give to its
  type. -/
  fields : List.Forall₂ (fun u f => f.toDeclarator = u.toDeclarator ∧
    tables.elementCount? u.typeName = some f.elementCount) us layout.fields
  /-- A field is aligned to one, two or four elements. -/
  alignment : ∀ f ∈ layout.fields, f.alignment = 4 ∨ f.alignment = 8 ∨ f.alignment = 16
  /-- A field begins at the first multiple of its alignment that is not below the end of the field
  before it. -/
  placed : ∀ front f behind, layout.fields = front ++ f :: behind →
    IsFirstMultiple f.alignment (stopOf front) f.byteOffset
  /-- A field takes some bytes. -/
  nonempty : ∀ f ∈ layout.fields, f.bytes.Nonempty
  /-- No two fields share a byte. -/
  disjoint : layout.fields.Pairwise fun f g => Disjoint f.bytes g.bytes
  /-- Offsets increase. -/
  increasing : layout.fields.Pairwise fun f g => f.byteOffset < g.byteOffset
  /-- The buffer ends at the first multiple of 16 that is not below the end of the last field. -/
  total : IsFirstMultiple 16 (stopOf layout.fields) layout.totalBytes

variable {tables : HostTables} {us : List Uniform}

/-- What uniforms become has elements. -/
theorem elementCount_ne_zero_of_mapM {ms : List Member}
    (h : us.mapM (Member.ofUniform tables) = .ok ms) : ∀ m ∈ ms, m.elementCount ≠ 0 := by
  intro m hm
  obtain ⟨u, -, hu⟩ := (Outcome.mem_iff_of_mapM_eq_ok h).1 hm
  exact Member.ne_zero_of_wordBytes_ne_zero (Member.ofUniform_eq_ok_iff.1 hu).2.2.1

/-- What uniforms become is packed. -/
theorem packed_ofMembers {ms : List Member} (h : us.mapM (Member.ofUniform tables) = .ok ms) :
    Packed tables us (ofMembers ms) := by
  have hmembers := Outcome.mapM_eq_ok_iff.1 h
  have hms : ∀ m ∈ ms, m.elementCount ≠ 0 := elementCount_ne_zero_of_mapM h
  have hsized : ∀ f ∈ fieldsFrom 0 ms, f.elementCount ≠ 0 := by
    intro f hf
    refine hms f.toMember ?_
    rw [← map_toMember_fieldsFrom 0 ms]
    exact List.mem_map_of_mem hf
  have hapart := pairwise_stop_le hms 0
  constructor
  case fields =>
    rw [fields_ofMembers]
    rw [← map_toMember_fieldsFrom 0 ms, List.forall₂_map_right_iff] at hmembers
    refine hmembers.imp fun u f hf => ?_
    obtain ⟨-, hcount, -, hdeclarator⟩ := Member.ofUniform_eq_ok_iff.1 hf
    exact ⟨hdeclarator, hcount⟩
  case alignment =>
    rw [fields_ofMembers]
    exact fun f hf => Member.alignment_eq (hsized f hf)
  case placed =>
    rw [fields_ofMembers]
    intro front f behind hfields
    rw [byteOffset_eq_of_fieldsFrom_eq hfields]
    exact isFirstMultiple_roundUp (Member.alignment_pos (hsized f (by simp [hfields]))) _
  case nonempty =>
    rw [fields_ofMembers]
    exact fun f hf => Set.nonempty_Ico.2 (byteOffset_lt_stop_of_mem_fieldsFrom hms hf)
  case disjoint =>
    rw [fields_ofMembers]
    refine hapart.imp fun {f g} hfg => Set.disjoint_left.2 fun byte hf hg => ?_
    exact absurd hg.1 (Nat.not_le.2 (Nat.lt_of_lt_of_le hf.2 hfg))
  case increasing =>
    rw [fields_ofMembers]
    refine hapart.imp_of_mem fun {f g} hf _ hfg => ?_
    exact Nat.lt_of_lt_of_le (byteOffset_lt_stop_of_mem_fieldsFrom hms hf) hfg
  case total => exact isFirstMultiple_roundUp (Nat.succ_pos 15) _

/-- As many members as uniforms: there are none if there are no uniforms. -/
theorem eq_nil_iff_of_mapM {ms : List Member} (h : us.mapM (Member.ofUniform tables) = .ok ms) :
    ms = [] ↔ us = [] := by
  rw [← List.length_eq_zero_iff, ← (Outcome.mapM_eq_ok_iff.1 h).length_eq, List.length_eq_zero_iff]

/-- Only without uniforms there is no buffer. -/
theorem ofUniforms_eq_ok_none_iff : ofUniforms tables us = .ok none ↔ us = [] := by
  rw [ofUniforms_eq_ok_iff]
  constructor
  · rintro ⟨ms, hms, hlayout⟩
    unfold ofMembers? at hlayout
    split at hlayout
    · next hempty => exact (eq_nil_iff_of_mapM hms).1 hempty
    · contradiction
  · rintro rfl
    exact ⟨[], rfl, rfl⟩

/-- Uniforms have a buffer if there are some and they become members. -/
theorem ofUniforms_eq_ok_some_iff {layout : BufferLayout} :
    ofUniforms tables us = .ok (some layout) ↔
      us ≠ [] ∧ ∃ ms, us.mapM (Member.ofUniform tables) = .ok ms ∧ layout = ofMembers ms := by
  rw [ofUniforms_eq_ok_iff]
  constructor
  · rintro ⟨ms, hms, hlayout⟩
    unfold ofMembers? at hlayout
    split at hlayout
    · contradiction
    · next hne => exact ⟨mt (eq_nil_iff_of_mapM hms).2 hne, ms, hms, Option.some.inj hlayout⟩
  · rintro ⟨hne, ms, hms, rfl⟩
    exact ⟨ms, hms, (if_neg (mt (eq_nil_iff_of_mapM hms).1 hne)).symm⟩

/-- The layout of the first of some uniforms has the first fields of the layout of all of them. -/
theorem exists_layout_of_prefix {front : List Uniform} {layout : BufferLayout}
    (h : ofUniforms tables us = .ok (some layout)) (hfirst : front <+: us) (hne : front ≠ []) :
    ∃ layout', ofUniforms tables front = .ok (some layout') ∧
      layout'.fields = layout.fields.take front.length := by
  obtain ⟨-, ms, hms, rfl⟩ := ofUniforms_eq_ok_some_iff.1 h
  have hfront := List.forall₂_take front.length (Outcome.mapM_eq_ok_iff.1 hms)
  rw [← List.prefix_iff_eq_take.1 hfirst] at hfront
  refine ⟨ofMembers (ms.take front.length), ?_, ?_⟩
  · exact ofUniforms_eq_ok_some_iff.2 ⟨hne, _, Outcome.mapM_eq_ok_iff.2 hfront, rfl⟩
  · rw [fields_ofMembers, fields_ofMembers, fieldsFrom_take]

/-- Uniforms that are not laid out are refused for the first one that is unfit. -/
theorem ofUniforms_eq_error_iff {cause : LinkError} :
    ofUniforms tables us = .error cause ↔ ∃ front u behind, us = front ++ u :: behind ∧
      (∀ v ∈ front, ¬ Member.Unfit tables v) ∧ Member.Refused tables u cause := by
  have hmembers : ofUniforms tables us = .error cause ↔
      us.mapM (Member.ofUniform tables) = .error cause := by
    rw [ofUniforms, Outcome.bind_eq_error_iff]
    apply or_iff_left
    rintro ⟨ms, -, hpure⟩
    contradiction
  rw [hmembers, Outcome.mapM_eq_error_iff]
  simp only [Member.exists_ofUniform_iff_not_unfit, Member.ofUniform_eq_error_iff]

/-- Uniforms are laid out unless one of them is unfit for a buffer; without uniforms there is no
buffer. The fields of a buffer are packed, and a buffer for the first of the uniforms has the first
of the fields. Uniforms that are not laid out are refused for the first one that is unfit. -/
theorem packed_or_refused (tables : HostTables) (us : List Uniform) :
    (ofUniforms tables us = .ok none ↔ us = []) ∧
    ((∃ cause, ofUniforms tables us = .error cause) ↔ ∃ u ∈ us, Member.Unfit tables u) ∧
    (∀ cause, ofUniforms tables us = .error cause ↔ ∃ front u behind, us = front ++ u :: behind ∧
      (∀ v ∈ front, ¬ Member.Unfit tables v) ∧ Member.Refused tables u cause) ∧
    ∀ layout, ofUniforms tables us = .ok (some layout) → Packed tables us layout ∧
      ∀ front, front <+: us → front ≠ [] →
        ∃ layout', ofUniforms tables front = .ok (some layout') ∧
          layout'.fields = layout.fields.take front.length := by
  refine ⟨ofUniforms_eq_ok_none_iff, ⟨?_, ?_⟩, fun cause => ofUniforms_eq_error_iff,
    fun layout h => ⟨?_, fun front hfirst hne => exists_layout_of_prefix h hfirst hne⟩⟩
  · rintro ⟨cause, hcause⟩
    obtain ⟨front, u, behind, rfl, -, hrefused⟩ := ofUniforms_eq_error_iff.1 hcause
    exact ⟨u, List.mem_append_cons_self, Member.exists_refused_iff.1 ⟨cause, hrefused⟩⟩
  · rintro ⟨u, hu, hunfit⟩
    cases hlayout : ofUniforms tables us with
    | error cause => exact ⟨cause, rfl⟩
    | ok layout =>
      obtain ⟨ms, hms, -⟩ := ofUniforms_eq_ok_iff.1 hlayout
      have hmember := Outcome.exists_mapM_eq_ok_iff.1 ⟨ms, hms⟩ u hu
      exact absurd hunfit (Member.exists_ofUniform_iff_not_unfit.1 hmember)
  · obtain ⟨-, ms, hms, rfl⟩ := ofUniforms_eq_ok_some_iff.1 h
    exact packed_ofMembers hms

/-- Types of five and of seven elements, the first in an array, among types of the standard
tables. -/
example :
    let tables := (HostTables.standard.setElementCount "five" 5).setElementCount "seven" 7
    let declarators : List Declarator :=
      [⟨none, "float", "a", 0⟩, ⟨none, "five", "b", 1⟩, ⟨none, "vec2", "c", 0⟩,
        ⟨none, "seven", "d", 0⟩, ⟨none, "float", "e", 0⟩]
    (ofUniforms tables (declarators.map (⟨·, "", .vertex⟩))).map
        (Option.map fun layout => (layout.fields.map placeOf, layout.totalBytes)) =
      .ok (some ([⟨0, 4⟩, ⟨16, 32⟩, ⟨48, 8⟩, ⟨64, 28⟩, ⟨92, 4⟩], 96)) := by
  decide

end BufferLayout

end ShaderInterface
