import ShaderInterface.Link.Code
import ShaderInterface.Proofs.Outcome
import ShaderInterface.Proofs.Spans
import ShaderInterface.Source.Declaration
import ShaderInterface.Source.Stripped

/-!
# Places of declarations

The bytes that a declaration is said to take are those of its cut. `Declaration.placeFrom` places
the declarations of an outline one after the other, without an accumulator, and `slice_eq` gives
the bytes of a source between two places.
-/

namespace ShaderInterface.Source

open Code (utf8)

/-! ## Bytes of characters -/

/-- No bytes are those of no character. -/
@[simp]
theorem byteCount_nil : byteCount [] = 0 := rfl

/-- The characters of a text have as many bytes as the text. -/
@[simp]
theorem byteCount_toList (s : String) : byteCount s.toList = s.utf8ByteSize := by
  rw [byteCount, String.ofList_toList]

/-- A newline is one byte. -/
theorem byteCount_cons_newline (cs : List Char) : byteCount ('\n' :: cs) = 1 + byteCount cs :=
  byteCount_append ['\n'] cs

/-- The bytes of two runs of characters stand in a row. -/
theorem utf8_ofList_append (cs ds : List Char) :
    utf8 (String.ofList (cs ++ ds)) = utf8 (String.ofList cs) ++ utf8 (String.ofList ds) := by
  rw [String.ofList_append, Code.utf8_append]

/-- The bytes of a text are those of its characters. -/
theorem utf8_ofList (cs : List Char) :
    utf8 (String.ofList cs) = cs.flatMap String.utf8EncodeChar := by
  simp [utf8, String.ofList, List.utf8Encode]

/-- The byte of a newline stands for nothing but a newline. -/
theorem eq_newline_of_mem_utf8EncodeChar {c : Char} (h : 10 ∈ String.utf8EncodeChar c) :
    c = '\n' := by
  have hten : ∀ n < 256, (10 : UInt8) = UInt8.ofNat n ↔ n = 10 := by
    intro n hn
    rw [← UInt8.toNat_inj, UInt8.toNat_ofNat_of_lt' hn]
    exact eq_comm
  have hval : c.val.toNat = 10 := by
    rw [String.utf8EncodeChar] at h
    repeat' split at h
    -- all bytes of a character that has more than one are at least 128
    all_goals
      simp (disch := omega) only [List.mem_cons, List.not_mem_nil, or_false, hten] at h
      omega
  exact Char.ext (UInt32.toNat_inj.1 hval)

/-- A text ends with a newline if its last byte says so. -/
theorem getLast?_utf8_eq_newline_iff (cs : List Char) :
    (utf8 (String.ofList cs)).getLast? = some 10 ↔ cs.getLast? = some '\n' := by
  rcases List.eq_nil_or_concat cs with rfl | ⟨ds, c, rfl⟩
  · decide
  · rw [List.concat_eq_append, utf8_ofList, List.flatMap_append, List.flatMap_singleton,
      List.getLast?_append, List.getLast?_eq_some_getLast String.utf8EncodeChar_ne_nil,
      Option.some_or, List.getLast?_concat, Option.some_inj, Option.some_inj]
    constructor
    · intro h
      exact eq_newline_of_mem_utf8EncodeChar (h ▸ List.getLast_mem _)
    · intro h
      subst h
      decide

/-- The bytes of a source from `start` on and before `stop`. -/
def slice (source : String) (start stop : Nat) : List UInt8 :=
  ((utf8 source).take stop).drop start

/-- Characters that stand in a source are found at their place. -/
theorem slice_eq {source : String} {before cs behind : List Char}
    (h : source.toList = before ++ (cs ++ behind)) :
    slice source (byteCount before) (byteCount before + byteCount cs) =
      utf8 (String.ofList cs) := by
  have hlength : ∀ cs, (utf8 (String.ofList cs)).length = byteCount cs :=
    fun cs => Code.length_utf8 _
  rw [slice, ← String.ofList_toList (s := source), h, ← List.append_assoc, utf8_ofList_append,
    List.take_left' (by rw [hlength, byteCount_append]), utf8_ofList_append,
    List.drop_left' (hlength before)]

/-! ## Declarations one after the other -/

namespace Declaration

/-- The declarations of cuts of which the first begins at the byte `start`. -/
def placeFrom (start : Nat) : List (Cut × List Char) → List Declaration
  | [] => []
  | (cut, gap) :: cuts =>
    ofCut start cut :: placeFrom (start + byteCount cut.text + byteCount gap) cuts

/-- Nothing is placed where nothing was cut out. -/
theorem placeFrom_eq_nil_iff {start : Nat} {cuts : List (Cut × List Char)} :
    placeFrom start cuts = [] ↔ cuts = [] := by
  cases cuts with
  | nil => exact iff_of_true rfl rfl
  | cons next cuts => exact iff_of_false (List.cons_ne_nil _ _) (List.cons_ne_nil _ _)

/-- Declarations are placed behind those placed before. -/
theorem foldl_place (placed : Array Declaration) (start : Nat) (cuts : List (Cut × List Char)) :
    (cuts.foldl place (placed, start)).1.toList = placed.toList ++ placeFrom start cuts := by
  induction cuts generalizing placed start with
  | nil => exact (List.append_nil _).symm
  | cons next cuts ih =>
    rw [List.foldl_cons, place, ih, Array.toList_push, List.append_assoc]
    rfl

/-- The first declaration of an outline stands behind its lead. -/
theorem ofOutline_eq (outline : Outline) :
    ofOutline outline = placeFrom (byteCount outline.lead) outline.cuts := by
  rw [ofOutline, foldl_place]
  rfl

/-- A source has declarations if it has an outline. -/
theorem ofSource_eq_ok_iff {stage : Stage} {source : String} {ds : List Declaration} :
    ofSource stage source = .ok ds ↔
      ∃ outline, Outline.ofSource stage source = .ok outline ∧ ofOutline outline = ds := by
  rw [ofSource, Outcome.map_eq_ok_iff]

/-- The payloads of the declarations with one keyword, in order. -/
def payloads (ds : List Declaration) (keyword : Keyword) : List String :=
  (ds.filter (·.keyword == keyword)).map (·.payload)

/-- Declarations have the keywords and payloads of their cuts. -/
theorem map_placeFrom (start : Nat) (cuts : List (Cut × List Char)) :
    (placeFrom start cuts).map (fun d => (d.keyword, d.payload)) =
      cuts.map fun (cut, _) => (cut.keyword, cut.payload) := by
  induction cuts generalizing start with
  | nil => rfl
  | cons next cuts ih => rw [placeFrom, List.map_cons, List.map_cons, ih, ofCut]

end Declaration

namespace Stripped

/-- What is taken out of a source are the declarations of its outline. -/
theorem declarations_ofOutline (outline : Outline) :
    (ofOutline outline).declarations =
      (Declaration.ofOutline outline).map fun d => (d.keyword, d.payload) := by
  rw [Declaration.ofOutline_eq, Declaration.map_placeFrom, ofOutline]
  split
  · next hbare =>
    rw [List.isEmpty_iff.1 hbare, ofBare]
    split <;> rfl
  · rfl

/-- The payloads that are taken out are those of the declarations. -/
theorem payloads_ofOutline (outline : Outline) :
    (ofOutline outline).payloads = Declaration.payloads (Declaration.ofOutline outline) := by
  funext keyword
  rw [payloads, declarations_ofOutline, List.filter_map, List.map_map, Declaration.payloads]
  rfl

/-- The declarations are taken out of a source that is not too large and in which each has an
end. -/
theorem exists_ofSource_eq_ok_iff {stage : Stage} {source : String} {ps : Keyword → List String} :
    (∃ stripped, ofSource stage source = .ok stripped ∧ stripped.payloads = ps) ↔
      source.utf8ByteSize ≤ maxSourceBytes ∧
        ∃ ds, Declaration.ofSource stage source = .ok ds ∧ Declaration.payloads ds = ps := by
  rw [ofSource]
  split
  · next hlarge => exact iff_of_false nofun fun h => absurd h.1 (Nat.not_le.2 hlarge)
  · next hlarge =>
    rw [and_iff_right (Nat.not_lt.1 hlarge)]
    simp only [Outcome.map_eq_ok_iff, Declaration.ofSource_eq_ok_iff]
    constructor
    · rintro ⟨-, ⟨outline, houtline, rfl⟩, rfl⟩
      exact ⟨_, ⟨outline, houtline, rfl⟩, (payloads_ofOutline outline).symm⟩
    · rintro ⟨-, ⟨outline, houtline, rfl⟩, rfl⟩
      exact ⟨_, ⟨outline, houtline, rfl⟩, payloads_ofOutline outline⟩

end Stripped

/-! ## The line of a `#version` directive -/

/-- What stands in front of the first newline, and what stands behind it if there is one. -/
theorem eq_takeWhile_newline (cs : List Char) :
    '\n' ∉ cs.takeWhile (· != '\n') ∧
      (cs = cs.takeWhile (· != '\n') ++ '\n' :: (cs.dropWhile (· != '\n')).drop 1 ∨
        cs = cs.takeWhile (· != '\n') ∧ (cs.dropWhile (· != '\n')).drop 1 = []) := by
  have hparts : cs.takeWhile (· != '\n') ++ cs.dropWhile (· != '\n') = cs :=
    List.takeWhile_append_dropWhile
  constructor
  · intro hmem
    exact absurd (List.all_eq_true.1 List.all_takeWhile '\n' hmem) (by decide)
  · cases hdrop : cs.dropWhile (· != '\n') with
    | nil =>
      rw [hdrop, List.append_nil] at hparts
      exact .inr ⟨hparts.symm, rfl⟩
    | cons c rest =>
      have hhead : c ∈ (cs.dropWhile (· != '\n')).head? := by
        rw [hdrop]
        rfl
      have hc : c = '\n' := by simpa using Text.not_of_mem_head?_dropWhile hhead
      rw [hdrop, hc] at hparts
      exact .inl hparts.symm

/-- The line of a leading `#version` directive, which may stand behind blanks, runs to the next
newline or to the end. -/
theorem splitVersionLine?_eq_some {cs line rest : List Char}
    (h : splitVersionLine? cs = some (line, rest)) :
    ∃ blanks directive, line = blanks ++ directive ∧ (∀ c ∈ blanks, Text.isBlank c) ∧
      directive ≠ [] ∧ '\n' ∉ directive ∧
        (cs = line ++ '\n' :: rest ∨ cs = line ∧ rest = []) := by
  rw [splitVersionLine?] at h
  split at h
  · next hversion =>
    obtain ⟨rfl, rfl⟩ := Prod.mk.inj (Option.some.inj h)
    obtain ⟨hline, hrest⟩ := eq_takeWhile_newline (Text.trimStart cs)
    refine ⟨_, _, rfl, List.all_eq_true.1 List.all_takeWhile, ?_, hline, ?_⟩
    · obtain ⟨name, hname⟩ := hversion
      rw [← hname]
      exact List.cons_ne_nil _ _
    · have hparts := Text.takeWhile_append_trimStart cs
      rcases hrest with hcons | ⟨hall, hnil⟩
      · left
        rw [List.append_assoc, ← hcons, hparts]
      · right
        rw [← hall, hparts]
        exact ⟨rfl, hnil⟩
  · contradiction

end ShaderInterface.Source
