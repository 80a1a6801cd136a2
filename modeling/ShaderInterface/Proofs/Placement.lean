import Mathlib.Data.List.Nodup
import ShaderInterface.Interface.Attribute
import ShaderInterface.Interface.Output
import ShaderInterface.Interface.Varying
import ShaderInterface.Proofs.Outcome
import ShaderInterface.Proofs.Spans

/-!
# Which variables get locations

When the attributes, varyings and outputs of a pair of shaders are given locations. The conditions
are on the declarations alone, and none of them depends on their order: every text declares a
variable, mapped attributes have different locations, and the fragment stage reads nothing but what
the vertex stage produces under different names.
-/

namespace ShaderInterface

/-- A further element keeps keys apart if its key is new. -/
theorem nodup_map_push_iff {α β : Type} {key : α → β} {xs : Array α} {x : α} :
    ((xs.push x).toList.map key).Nodup ↔
      (xs.toList.map key).Nodup ∧ ∀ y ∈ xs, key y ≠ key x := by
  rw [Array.toList_push, List.map_append, List.map_singleton, List.nodup_append,
    and_iff_right (List.nodup_singleton _)]
  simp

/-! ## Reading a variable -/

namespace Variable

/-- Behind its leading qualifiers, a text has a type and a name and nothing else. -/
def Declares (text typeName name : String) : Prop :=
  (Text.words text).dropWhile isQualifier = [typeName, name] ∧ Text.isIdentifier typeName ∧
    Text.isIdentifier name

/-- A text has at most one type and name. -/
theorem Declares.unique {text typeName name typeName' name' : String}
    (h : Declares text typeName name) (h' : Declares text typeName' name') :
    typeName = typeName' ∧ name = name' := by
  have heq := h.1.symm.trans h'.1
  simpa using heq

/-- A variable is read from a text that declares it. -/
theorem parse_eq_ok_iff {stage : Stage} {keyword : Source.Keyword} {text : String} {v : Variable} :
    parse stage keyword text = .ok v ↔
      Declares text v.typeName v.name ∧ v.qualifiers = (Text.words text).takeWhile isQualifier := by
  obtain ⟨qualifiers, typeName, name⟩ := v
  unfold parse parse? Declares
  dsimp only
  generalize (Text.words text).dropWhile isQualifier = rest
  split
  · next v hv =>
    split at hv
    · next typeName' name' =>
      split at hv
      · next hid =>
        obtain rfl := Option.some.inj hv
        rw [Bool.and_eq_true] at hid
        simp only [Except.ok.injEq, Variable.mk.injEq, List.cons.injEq, and_true]
        constructor
        · rintro ⟨rfl, rfl, rfl⟩
          exact ⟨⟨⟨rfl, rfl⟩, hid⟩, rfl⟩
        · rintro ⟨⟨⟨rfl, rfl⟩, -⟩, rfl⟩
          exact ⟨rfl, rfl, rfl⟩
      · contradiction
    · contradiction
  · next hv =>
    refine iff_of_false nofun ?_
    rintro ⟨⟨rfl, hid⟩, -⟩
    simp [hid] at hv

/-- A variable is read if the text declares one. -/
theorem exists_parse_eq_ok_iff (stage : Stage) (keyword : Source.Keyword) {text : String} :
    (∃ v, parse stage keyword text = .ok v) ↔ ∃ typeName name, Declares text typeName name := by
  simp only [parse_eq_ok_iff]
  constructor
  · rintro ⟨v, h, -⟩
    exact ⟨v.typeName, v.name, h⟩
  · rintro ⟨typeName, name, h⟩
    exact ⟨⟨_, typeName, name⟩, h, rfl⟩

/-- The words of the text are the qualifiers of the variable, its type and its name. -/
structure IsWritten (v : Variable) (text : String) : Prop where
  words : Text.words text = v.qualifiers ++ [v.typeName, v.name]
  qualifiers : ∀ q ∈ v.qualifiers, isQualifier q
  /-- The type is not one more qualifier. -/
  typeName : Text.isIdentifier v.typeName ∧ ¬ isQualifier v.typeName
  name : Text.isIdentifier v.name

/-- A variable is read from a text exactly if it is written there. -/
theorem parse_eq_ok_iff_isWritten {stage : Stage} {keyword : Source.Keyword} {text : String}
    {v : Variable} : parse stage keyword text = .ok v ↔ v.IsWritten text := by
  rw [parse_eq_ok_iff, Declares]
  constructor
  · rintro ⟨⟨hrest, htype, hname⟩, hqualifiers⟩
    refine ⟨?_, ?_, ⟨htype, ?_⟩, hname⟩
    · rw [hqualifiers, ← hrest, List.takeWhile_append_dropWhile]
    · rw [hqualifiers]
      exact fun q hq => List.mem_takeWhile_imp hq
    · have hhead : v.typeName ∈ ((Text.words text).dropWhile isQualifier).head? := by
        rw [hrest]
        rfl
      exact Text.not_of_mem_head?_dropWhile hhead
  · rintro ⟨hwords, hqualifiers, ⟨htype, hnot⟩, hname⟩
    have hhead : ∀ w ∈ [v.typeName, v.name].head?, ¬ isQualifier w := by
      rintro w ⟨⟩
      exact hnot
    rw [hwords, Text.takeWhile_append_eq hqualifiers hhead,
      Text.dropWhile_append_eq hqualifiers hhead]
    exact ⟨⟨rfl, htype, hname⟩, rfl⟩

/-- Each of the lines is what one of the variables is written as, in order. -/
def AreWritten (vs : List Variable) (lines : List String) : Prop :=
  List.Forall₂ (fun text v => v.IsWritten text) lines vs

end Variable

open Variable (Declares)

/-! ## Attributes -/

namespace Attribute

variable {semantics : SemanticMap} {formats : FormatMap}
  {location : Semantic → Except UnsupportedSemantic Nat}

/-- The text declares an attribute that has a semantic. -/
def Mapped (semantics : SemanticMap) (text : String) (s : Semantic) : Prop :=
  ∃ typeName name, Declares text typeName name ∧ semantics[name]? = some s

/-- An attribute has the semantic of its name. -/
theorem mapped_iff {text : String} {v : Variable} (hv : Variable.parse .vertex .attrib text = .ok v)
    {s : Semantic} : Mapped semantics text s ↔ semantics[v.name]? = some s := by
  have hdeclares := (Variable.parse_eq_ok_iff.1 hv).1
  constructor
  · rintro ⟨typeName, name, h, hs⟩
    rwa [(hdeclares.unique h).2]
  · exact fun hs => ⟨v.typeName, v.name, hdeclares, hs⟩

/-- An attribute is added if it is read and its semantic, if it has one, has a location that is
free. -/
theorem place_eq_ok_iff {placed placed' : Array Attribute} {text : String} :
    place semantics formats location placed text = .ok placed' ↔
      ∃ v, Variable.parse .vertex .attrib text = .ok v ∧
        (semantics[v.name]? = none ∧ placed' = placed ∨
          ∃ s l, semantics[v.name]? = some s ∧ location s = .ok l ∧
            (∀ a ∈ placed, a.location ≠ l) ∧
            placed' = placed.push ⟨⟨v, l⟩, s, (formats s).bind (·.integers?)⟩) := by
  rw [place, Outcome.bind_eq_ok_iff]
  refine exists_congr fun v => and_congr_right fun _ => ?_
  cases hs : semantics[v.name]? with
  | none => simp [pure, Except.pure, eq_comm]
  | some s =>
    cases hl : location s with
    | error cause => simp [hl, throw, throwThe, MonadExceptOf.throw]
    | ok l =>
      simp only [reduceCtorEq, false_and, false_or, Option.some.injEq, exists_and_left,
        exists_eq_left', hl, Except.ok.injEq]
      cases hfind : placed.find? (·.location == l) with
      | none =>
        have hfree : ∀ a ∈ placed, a.location ≠ l := by
          simpa [Array.find?_eq_none] using hfind
        rw [and_iff_right hfree]
        exact ⟨fun h => (Except.ok.inj h).symm, fun h => h ▸ rfl⟩
      | some first =>
        have hfirst : first.location = l := by simpa using Array.find?_some hfind
        exact iff_of_false nofun fun h => h.1 first (Array.mem_of_find?_eq_some hfind) hfirst

/-- The attribute can be added to those that are placed. -/
def Fits (semantics : SemanticMap) (location : Semantic → Except UnsupportedSemantic Nat)
    (placed : Array Attribute) (text : String) : Prop :=
  (∃ typeName name, Declares text typeName name) ∧
    ∀ s, Mapped semantics text s → ∃ l, location s = .ok l ∧ ∀ a ∈ placed, a.location ≠ l

/-- Two attributes do not share a location. -/
def Apart (semantics : SemanticMap) (location : Semantic → Except UnsupportedSemantic Nat)
    (text text' : String) : Prop :=
  ∀ s s', Mapped semantics text s → Mapped semantics text' s' → location s ≠ location s'

/-- An attribute is added if it fits. -/
theorem exists_place_eq_ok_iff (placed : Array Attribute) (text : String) :
    (∃ placed', place semantics formats location placed text = .ok placed') ↔
      Fits semantics location placed text := by
  rw [Fits, ← Variable.exists_parse_eq_ok_iff .vertex .attrib]
  simp only [place_eq_ok_iff]
  constructor
  · rintro ⟨placed', v, hv, h⟩
    refine ⟨⟨v, hv⟩, fun s hs => ?_⟩
    rw [mapped_iff hv] at hs
    rcases h with ⟨hnone, -⟩ | ⟨s', l, hs', hl, hfree, -⟩
    · rw [hnone] at hs
      contradiction
    · obtain rfl := Option.some.inj (hs'.symm.trans hs)
      exact ⟨l, hl, hfree⟩
  · rintro ⟨⟨v, hv⟩, h⟩
    cases hs : semantics[v.name]? with
    | none => exact ⟨placed, v, hv, .inl ⟨hs, rfl⟩⟩
    | some s =>
      obtain ⟨l, hl, hfree⟩ := h s ((mapped_iff hv).2 hs)
      exact ⟨_, v, hv, .inr ⟨s, l, hs, hl, hfree, rfl⟩⟩

/-- Behind an attribute fit those that fitted before and do not share its location. -/
theorem fits_of_place {placed placed' : Array Attribute} {text : String}
    (h : place semantics formats location placed text = .ok placed') (other : String) :
    Fits semantics location placed' other ↔
      Fits semantics location placed other ∧ Apart semantics location text other := by
  obtain ⟨v, hv, ⟨hnone, rfl⟩ | ⟨s, l, hs, hl, -, rfl⟩⟩ := place_eq_ok_iff.1 h
  · have hapart : Apart semantics location text other := by
      intro s s' hs
      rw [mapped_iff hv, hnone] at hs
      contradiction
    rw [and_iff_left hapart]
  · have hapart : Apart semantics location text other ↔
        ∀ s', Mapped semantics other s' → location s' ≠ .ok l := by
      constructor
      · intro h s' hs' heq
        exact h s s' ((mapped_iff hv).2 hs) hs' (hl.trans heq.symm)
      · intro h t s' ht hs' heq
        rw [mapped_iff hv, hs] at ht
        exact h s' hs' (heq.symm.trans (Option.some.inj ht ▸ hl))
    rw [Fits, Fits, hapart, and_assoc, ← forall₂_and]
    refine and_congr_right fun _ => forall₂_congr fun s' _ => ?_
    cases location s' with
    | error cause => simp
    | ok l' => simp [Array.mem_push, or_imp, forall_and, eq_comm]

/-- Attributes are placed if all are read, those with a semantic have a location, and no two of
these share it. -/
theorem exists_assign_eq_ok_iff {lines : List String} :
    (∃ as, assign semantics formats location lines = .ok as) ↔
      (∀ text ∈ lines, ∃ typeName name, Declares text typeName name) ∧
      (∀ text ∈ lines, ∀ s, Mapped semantics text s → ∃ l, location s = .ok l) ∧
      lines.Pairwise (Apart semantics location) := by
  have hfits : ∀ text, Fits semantics location #[] text ↔
      (∃ typeName name, Declares text typeName name) ∧
        ∀ s, Mapped semantics text s → ∃ l, location s = .ok l := by
    simp [Fits]
  have hfold := Outcome.exists_foldlM_eq_ok_iff
    (@exists_place_eq_ok_iff semantics formats location) (fun _ _ _ => fits_of_place) lines #[]
  simp only [hfits, forall_and, ← and_assoc] at hfold ⊢
  rw [← hfold]
  simp only [assign, Outcome.map_eq_ok_iff]
  exact ⟨fun ⟨_, out, hout, _⟩ => ⟨out, hout⟩, fun ⟨out, hout⟩ => ⟨out.toList, out, hout, rfl⟩⟩

end Attribute

/-! ## Varyings -/

namespace Varyings

/-- Two varyings have different names. -/
def Apart (text text' : String) : Prop :=
  ∀ typeName name typeName' name', Declares text typeName name → Declares text' typeName' name' →
    name ≠ name'

/-- A varying of the vertex stage is added if it is read and its name is new. -/
theorem produce_eq_ok_iff {produced produced' : Array PlacedVariable} {text : String} :
    produce produced text = .ok produced' ↔ ∃ v, Variable.parse .vertex .varying text = .ok v ∧
      (∀ w ∈ produced, w.name ≠ v.name) ∧ produced' = produced.push ⟨v, produced.size⟩ := by
  rw [produce, Outcome.bind_eq_ok_iff]
  refine exists_congr fun v => and_congr_right fun _ => ?_
  have hany : produced.any (·.name == v.name) ↔ ¬ ∀ w ∈ produced, w.name ≠ v.name := by
    rw [← Array.any_toList, List.any_eq_true]
    simp
  split
  · next h => exact iff_of_false nofun fun hnew => hany.1 h hnew.1
  · next h =>
    rw [and_iff_right (not_not.1 (mt hany.2 h))]
    exact ⟨fun h => (Except.ok.inj h).symm, fun h => h ▸ rfl⟩

/-- The varying can be added to those that are produced. -/
def Fits (produced : Array PlacedVariable) (text : String) : Prop :=
  ∃ typeName name, Declares text typeName name ∧ ∀ w ∈ produced, w.name ≠ name

/-- A varying is added if it fits. -/
theorem exists_produce_eq_ok_iff (produced : Array PlacedVariable) (text : String) :
    (∃ produced', produce produced text = .ok produced') ↔ Fits produced text := by
  simp only [produce_eq_ok_iff, Variable.parse_eq_ok_iff]
  constructor
  · rintro ⟨-, v, ⟨hv, -⟩, hnew, -⟩
    exact ⟨v.typeName, v.name, hv, hnew⟩
  · rintro ⟨typeName, name, hv, hnew⟩
    exact ⟨_, ⟨_, typeName, name⟩, ⟨hv, rfl⟩, hnew, rfl⟩

/-- Behind a varying fit those that fitted before and have another name. -/
theorem fits_of_produce {produced produced' : Array PlacedVariable} {text : String}
    (h : produce produced text = .ok produced') (other : String) :
    Fits produced' other ↔ Fits produced other ∧ Apart text other := by
  obtain ⟨v, hv, -, rfl⟩ := produce_eq_ok_iff.1 h
  have hdeclares := (Variable.parse_eq_ok_iff.1 hv).1
  constructor
  · rintro ⟨typeName, name, hother, hnew⟩
    refine ⟨⟨typeName, name, hother, fun w hw => hnew w (Array.mem_push.2 (.inl hw))⟩, ?_⟩
    intro t n t' n' htext hother'
    rw [(htext.unique hdeclares).2, (hother'.unique hother).2]
    exact hnew _ (Array.mem_push.2 (.inr rfl))
  · rintro ⟨⟨typeName, name, hother, hnew⟩, hapart⟩
    refine ⟨typeName, name, hother, fun w hw => ?_⟩
    rcases Array.mem_push.1 hw with hw | rfl
    · exact hnew w hw
    · exact hapart _ _ _ _ hdeclares hother

/-- What is produced has the names that are declared. -/
theorem names_of_foldlM_produce {lines : List String} {produced out : Array PlacedVariable}
    (h : lines.foldlM produce produced = .ok out) {name : String} :
    (∃ w ∈ out, w.name = name) ↔ (∃ w ∈ produced, w.name = name) ∨
      ∃ text ∈ lines, ∃ typeName, Declares text typeName name := by
  induction lines generalizing produced with
  | nil =>
    obtain rfl := Except.ok.inj h
    simp
  | cons text lines ih =>
    rw [List.foldlM_cons, Outcome.bind_eq_ok_iff] at h
    obtain ⟨produced', htext, hout⟩ := h
    obtain ⟨v, hv, -, rfl⟩ := produce_eq_ok_iff.1 htext
    have hdeclares := (Variable.parse_eq_ok_iff.1 hv).1
    have hname : (∃ typeName, Declares text typeName name) ↔ v.name = name := by
      constructor
      · rintro ⟨typeName, h⟩
        exact (hdeclares.unique h).2
      · rintro rfl
        exact ⟨v.typeName, hdeclares⟩
    rw [ih hout, List.exists_mem_cons_iff, hname, ← or_assoc]
    simp [Array.mem_push, or_and_right, exists_or]

/-- A varying of the fragment stage is read if one of its name is produced. -/
theorem exists_consume_eq_ok_iff {produced : List PlacedVariable} {text : String} :
    (∃ v, consume produced text = .ok v) ↔
      ∃ typeName name, Declares text typeName name ∧ ∃ w ∈ produced, w.name = name := by
  have hlocation : ∀ v : Variable, (∃ w ∈ produced, w.name = v.name) ↔
      ∃ l, location? produced v.name = some l := by
    intro v
    rw [location?, ← Option.isSome_iff_exists, Option.isSome_map, List.find?_isSome]
    simp
  simp only [consume, Outcome.bind_eq_ok_iff]
  constructor
  · rintro ⟨w, v, hv, hw⟩
    refine ⟨v.typeName, v.name, (Variable.parse_eq_ok_iff.1 hv).1, (hlocation v).2 ?_⟩
    cases hl : location? produced v.name with
    | none =>
      rw [hl] at hw
      contradiction
    | some l => exact ⟨l, rfl⟩
  · rintro ⟨typeName, name, hdeclares, hproduced⟩
    obtain ⟨l, hl⟩ := (hlocation ⟨(Text.words text).takeWhile Variable.isQualifier, typeName,
      name⟩).1 hproduced
    exact ⟨⟨_, l⟩, _, Variable.parse_eq_ok_iff.2 ⟨hdeclares, rfl⟩, by rw [hl]; rfl⟩

/-- The varyings of two stages are paired if all are read, those of the vertex stage have different
names, and those of the fragment stage have names that are among them. -/
theorem exists_pair_eq_ok_iff {vertexLines fragmentLines : List String} :
    (∃ v, pair vertexLines fragmentLines = .ok v) ↔
      (∀ text ∈ vertexLines, ∃ typeName name, Declares text typeName name) ∧
      vertexLines.Pairwise Apart ∧
      ∀ text ∈ fragmentLines, ∃ typeName name, Declares text typeName name ∧
        ∃ text' ∈ vertexLines, ∃ typeName', Declares text' typeName' name := by
  have hfold := Outcome.exists_foldlM_eq_ok_iff exists_produce_eq_ok_iff
    (fun _ _ _ => fits_of_produce) vertexLines #[]
  have hfits : ∀ text, Fits #[] text ↔ ∃ typeName name, Declares text typeName name := by
    simp [Fits]
  simp only [hfits] at hfold
  rw [← and_assoc, ← hfold]
  -- the names that are produced are those that are declared
  have hconsume : ∀ out, vertexLines.foldlM produce #[] = .ok out →
      ((∃ fs, fragmentLines.mapM (consume out.toList) = .ok fs) ↔
        ∀ text ∈ fragmentLines, ∃ typeName name, Declares text typeName name ∧
          ∃ text' ∈ vertexLines, ∃ typeName', Declares text' typeName' name) := by
    intro out hout
    have hnames : ∀ name, (∃ w ∈ out.toList, w.name = name) ↔
        ∃ text ∈ vertexLines, ∃ typeName, Declares text typeName name := by
      intro name
      simpa using names_of_foldlM_produce hout
    simp only [Outcome.exists_mapM_eq_ok_iff, exists_consume_eq_ok_iff, hnames]
  simp only [pair, Outcome.bind_eq_ok_iff]
  constructor
  · rintro ⟨-, out, hout, fs, hfs, -⟩
    exact ⟨⟨out, hout⟩, (hconsume out hout).1 ⟨fs, hfs⟩⟩
  · rintro ⟨⟨out, hout⟩, hfragment⟩
    obtain ⟨fs, hfs⟩ := (hconsume out hout).2 hfragment
    exact ⟨_, out, hout, fs, hfs, rfl⟩

end Varyings

/-! ## Outputs -/

/-- The outputs are given locations if all are read. -/
theorem Output.exists_assign_eq_ok_iff {lines : List String} :
    (∃ out, assign lines = .ok out) ↔
      ∀ text ∈ lines, ∃ typeName name, Declares text typeName name := by
  have hplace : ∀ line, (∃ v, place line = .ok v) ↔
      ∃ typeName name, Declares line.1 typeName name := by
    intro line
    rw [← Variable.exists_parse_eq_ok_iff .fragment .output]
    simp only [place, Outcome.bind_eq_ok_iff]
    exact ⟨fun ⟨_, v, hv, _⟩ => ⟨v, hv⟩, fun ⟨v, hv⟩ => ⟨_, v, hv, rfl⟩⟩
  simp only [assign, Outcome.exists_mapM_eq_ok_iff, hplace]
  conv_rhs => rw [← List.zipIdx_map_fst 0 lines, List.forall_mem_map]

end ShaderInterface
