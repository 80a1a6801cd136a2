import ShaderInterface.Proofs.Insertion
import ShaderInterface.Proofs.Spelling

/-!
# Text behind a source

Text that is put behind a source may go on with the last lexeme of the source: it may end a comment,
or turn a word into a longer one. All lexemes before the last one stay (`lexemes_append_of_concat`),
and so do the declarations among them. Only a declaration that is itself the last lexeme goes on,
over the semicolons with which the text begins. `Declaration.stay_of_ofSource_append` says so of the
declarations of a source.
-/

namespace ShaderInterface.Source

open Text

/-- Characters of one byte have as many bytes as there are characters. -/
theorem byteCount_eq_length {cs : List Char} (h : ∀ c ∈ cs, c.utf8Size = 1) :
    byteCount cs = cs.length := by
  induction cs with
  | nil => rfl
  | cons c cs ih =>
    rw [List.forall_mem_cons] at h
    have hfirst : byteCount [c] = 1 := by
      simpa [byteCount] using h.1
    have hcons : byteCount (c :: cs) = byteCount [c] + byteCount cs := byteCount_append [c] cs
    rw [hcons, hfirst, ih h.2, List.length_cons, Nat.add_comm]

/-! ## Declarations among lexemes -/

/-- The declarations among lexemes in a row are those among the first and those among the others. -/
theorem declarationsFrom_append (before : List Char) (ls ms : List Lexeme) :
    declarationsFrom before (ls ++ ms) =
      declarationsFrom before ls ++ declarationsFrom (before ++ ls.flatMap Lexeme.text) ms := by
  induction ls generalizing before with
  | nil => rw [List.flatMap_nil, List.append_nil]; rfl
  | cons l ls ih =>
    by_cases hdeclaration : ∃ keyword body semicolons, l = .declaration keyword body semicolons
    · obtain ⟨keyword, body, semicolons, rfl⟩ := hdeclaration
      rw [List.cons_append, declarationsFrom, declarationsFrom, ih]
      simp only [List.flatMap_cons, Lexeme.text, List.append_assoc, List.cons_append]
    · have hdeclaration := fun k b s h => hdeclaration ⟨k, b, s, h⟩
      rw [List.cons_append, declarationsFrom_cons hdeclaration, declarationsFrom_cons hdeclaration,
        ih, List.flatMap_cons, List.append_assoc]

/-- A declaration that is found behind some text ends behind that text. -/
theorem stop_le_of_mem_declarationsFrom {before : List Char} {ls : List Lexeme} {d : Declaration}
    (hd : d ∈ declarationsFrom before ls) :
    d.stop ≤ byteCount (before ++ ls.flatMap Lexeme.text) := by
  induction ls generalizing before with
  | nil => contradiction
  | cons l ls ih =>
    by_cases hdeclaration : ∃ keyword body semicolons, l = .declaration keyword body semicolons
    · obtain ⟨keyword, body, semicolons, rfl⟩ := hdeclaration
      have htext : before ++ keyword.word.toList ++ body ++ semicolons ++ ls.flatMap Lexeme.text =
          before ++ (Lexeme.declaration keyword body semicolons :: ls).flatMap Lexeme.text := by
        simp only [List.flatMap_cons, Lexeme.text, List.append_assoc]
      rw [← htext]
      rcases List.mem_cons.1 hd with rfl | hd
      · show byteCount (before ++ keyword.word.toList ++ body ++ semicolons) ≤ _
        rw [byteCount_append _ (ls.flatMap Lexeme.text)]
        exact Nat.le_add_right _ _
      · exact ih hd
    · rw [declarationsFrom_cons fun k b s h => hdeclaration ⟨k, b, s, h⟩] at hd
      rw [List.flatMap_cons, ← List.append_assoc]
      exact ih hd

/-- A character by itself is no keyword. -/
theorem keyword?_single (c : Char) : (single c).keyword? = none := by
  unfold single
  repeat' split
  all_goals rfl

/-- The indent of a declaration does not reach into a text that ends otherwise. -/
theorem rdropWhile_isIndent_append {before : List Char}
    (h : ∀ c ∈ before.getLast?, ¬ Outline.isIndent c) (cs : List Char) :
    (before ++ cs).rdropWhile Outline.isIndent = before ++ cs.rdropWhile Outline.isIndent := by
  have hbefore : before.reverse.dropWhile Outline.isIndent = before.reverse := by
    rw [List.dropWhile_eq_self_iff]
    intro hpos
    refine h _ ?_
    rw [← List.head?_reverse, List.head?_eq_getElem?, List.getElem?_eq_getElem hpos]
    rfl
  rw [List.rdropWhile, List.rdropWhile, List.reverse_append, List.dropWhile_append, hbefore]
  split
  · next hempty =>
    rw [List.isEmpty_iff.1 hempty, List.reverse_nil, List.append_nil, List.reverse_reverse]
  · rw [List.reverse_append, List.reverse_reverse]

/-! ## The last lexeme -/

/-- All lexemes before the last one are read in front of any text. -/
theorem lexemes_append_of_concat {cs : List Char} {init : List Lexeme} {last : Lexeme}
    (h : lexemes .start cs = init ++ [last]) (t : List Char) :
    lexemes .start (cs ++ t) = init ++ lexemes (.behind init) (last.text ++ t) := by
  have hfits := everywhere_fits_start cs
  have htext := flatMap_text_lexemes .start cs
  rw [h] at hfits htext
  obtain ⟨hinit, hlast, -⟩ := everywhere_append.1 hfits
  -- what is read before the last lexeme looks at the first character of it, which stays
  have hinit : Everywhere Fits [] (last.text ++ t) init := by
    refine hinit.congr_tail ?_
    obtain ⟨c, rest, hcons⟩ := List.exists_cons_of_ne_nil hlast.text_ne_nil
    rw [List.flatMap_singleton, hcons]
    rfl
  have hread := lexemes_append hinit
  rw [← htext, List.flatMap_append, List.flatMap_singleton, List.append_assoc]
  exact hread

/-- A declaration that ends a text goes on over the semicolons behind it. -/
theorem lexemes_declaration_append {before : List Lexeme} {keyword : Keyword}
    {body semicolons : List Char} (h : Fits before [] (.declaration keyword body semicolons))
    (t : List Char) :
    lexemes (.behind before) ((Lexeme.declaration keyword body semicolons).text ++ t) =
      let longer := .declaration keyword body (semicolons ++ t.takeWhile (· == ';'))
      longer :: lexemes (.behind (before ++ [longer])) (t.dropWhile (· == ';')) := by
  obtain ⟨hbegins, hbody, hne, hsemicolons, -⟩ := h
  have hlonger : Fits before (t.dropWhile (· == ';'))
      (.declaration keyword body (semicolons ++ t.takeWhile (· == ';'))) := by
    refine ⟨hbegins, hbody, List.append_ne_nil_of_left_ne_nil hne _, ?_, fun c hc => ?_⟩
    · refine List.forall_mem_append.2 ⟨hsemicolons, fun c hc => ?_⟩
      exact eq_of_beq (List.all_eq_true.1 List.all_takeWhile c hc)
    · simpa using not_of_mem_head?_dropWhile hc
  have hwhole : Everywhere Fits before (t.dropWhile (· == ';'))
      [.declaration keyword body (semicolons ++ t.takeWhile (· == ';'))] :=
    ⟨hlonger, trivial⟩
  have hread := lexemes_append hwhole
  rw [List.flatMap_singleton] at hread
  rw [← List.singleton_append, ← hread]
  simp only [Lexeme.text, List.append_assoc, List.takeWhile_append_dropWhile]

/-! ## Sources -/

namespace Declaration

/-- The declaration with more bytes at its end. -/
def extend (n : Nat) (d : Declaration) : Declaration :=
  { d with stop := d.stop + n }

/-- A declaration that takes more semicolons ends as many bytes further on. -/
theorem declarationsFrom_longer (before : List Char) (keyword : Keyword)
    (body semicolons more : List Char) :
    ∃ last, declarationsFrom before [.declaration keyword body semicolons] = [last] ∧
      last.stop = byteCount (before ++ (Lexeme.declaration keyword body semicolons).text) ∧
      ∀ ls, declarationsFrom before (.declaration keyword body (semicolons ++ more) :: ls) =
        last.extend (byteCount more) :: declarationsFrom
          (before ++ (Lexeme.declaration keyword body (semicolons ++ more)).text) ls := by
  refine ⟨_, rfl, ?_, fun ls => ?_⟩
  · simp only [Lexeme.text, List.append_assoc]
  · rw [declarationsFrom, extend]
    simp only [Lexeme.text, byteCount_append, Nat.add_assoc, List.append_assoc]

variable {stage : Stage} {s t : String} {ds es : List Declaration}

/-- Whatever stands behind a source, the declarations of the source stay the first ones, with their
keywords, payloads and places. Only if the source ends with a declaration, this one goes on over the
semicolons that follow. -/
theorem stay_of_ofSource_append (hs : ofSource stage s = .ok ds)
    (hst : ofSource stage (s ++ t) = .ok es) :
    (∃ more, es = ds ++ more ∧ ∀ d ∈ ds, d.stop < s.utf8ByteSize) ∨
      ∃ front last more, ds = front ++ [last] ∧ last.stop = s.utf8ByteSize ∧
        es = front ++ last.extend (t.toList.takeWhile (· == ';')).length :: more := by
  have hds := eq_declarationsFrom_of_ofSource hs
  have hes := eq_declarationsFrom_of_ofSource hst
  have hfits := everywhere_fits_start s.toList
  have htext := flatMap_text_lexemes .start s.toList
  rw [String.toList_append] at hes
  rcases List.eq_nil_or_concat' (lexemes .start s.toList) with hnil | ⟨init, last, hlexemes⟩
  · -- an empty source declares nothing
    rw [hnil] at hds
    subst hds
    exact .inl ⟨es, rfl, fun d hd => by contradiction⟩
  rw [lexemes_append_of_concat hlexemes, declarationsFrom_append, List.nil_append] at hes
  rw [hlexemes] at hds hfits htext
  rw [declarationsFrom_append, List.nil_append] at hds
  obtain ⟨-, hlast, -⟩ := everywhere_append.1 hfits
  rw [List.nil_append, List.flatMap_nil, List.nil_append] at hlast
  rw [List.flatMap_append, List.flatMap_singleton] at htext
  have hsize := congrArg byteCount htext
  rw [byteCount_toList] at hsize
  by_cases hdeclaration : ∃ keyword body semicolons, last = .declaration keyword body semicolons
  · obtain ⟨keyword, body, semicolons, rfl⟩ := hdeclaration
    have hsemicolons : byteCount (t.toList.takeWhile (· == ';')) =
        (t.toList.takeWhile (· == ';')).length := by
      refine byteCount_eq_length fun c hc => ?_
      obtain rfl : c = ';' := eq_of_beq (List.all_eq_true.1 List.all_takeWhile c hc)
      rfl
    obtain ⟨d, hd, hstop, hlonger⟩ := declarationsFrom_longer (init.flatMap Lexeme.text) keyword
      body semicolons (t.toList.takeWhile (· == ';'))
    rw [hd] at hds
    rw [lexemes_declaration_append hlast, hlonger, hsemicolons] at hes
    exact .inr ⟨_, d, _, hds, hstop.trans hsize, hes⟩
  · rw [declarationsFrom_cons fun k b s h => hdeclaration ⟨k, b, s, h⟩] at hds
    obtain rfl := hds.trans (List.append_nil _)
    refine .inl ⟨_, hes, fun d hd => ?_⟩
    -- the last lexeme is not empty and stands behind all declarations
    have hstop := stop_le_of_mem_declarationsFrom hd
    have hpos := List.length_pos_iff.2 hlast.text_ne_nil
    have hlength := length_le_byteCount last.text
    rw [byteCount_append] at hsize
    rw [List.nil_append] at hstop
    omega

/-- A source that ends with a declaration. -/
def shortSource : String :=
  "out vec4 é;\n/* a */ uniform float a;"

/-- A text that goes on with the last declaration, and has one more. -/
def laterText : String :=
  ";;b;\nuniform vec2 c;"

/-- The last declaration of the source goes on over two semicolons. -/
theorem stay_of_ofSource_append_laterText :
    ∃ ds es, ofSource .fragment shortSource = .ok ds ∧
      ofSource .fragment (shortSource ++ laterText) = .ok es ∧
      ds.map (fun d => (d.payload, d.start, d.stop)) =
        [("vec4 é", 0, 12), ("float a", 20, 37)] ∧
      es.map (fun d => (d.payload, d.start, d.stop)) =
        [("vec4 é", 0, 12), ("float a", 20, 39), ("vec2 c", 42, 57)] ∧
      ((∃ more, es = ds ++ more ∧ ∀ d ∈ ds, d.stop < shortSource.utf8ByteSize) ∨
        ∃ front last more, ds = front ++ [last] ∧ last.stop = shortSource.utf8ByteSize ∧
          es = front ++ last.extend (laterText.toList.takeWhile (· == ';')).length :: more) := by
  have hshort : (ofSource .fragment shortSource).map
      (fun ds => ds.map fun d => (d.payload, d.start, d.stop)) =
        .ok [("vec4 é", 0, 12), ("float a", 20, 37)] := by
    decide +kernel
  have hlong : (ofSource .fragment (shortSource ++ laterText)).map
      (fun es => es.map fun d => (d.payload, d.start, d.stop)) =
        .ok [("vec4 é", 0, 12), ("float a", 20, 39), ("vec2 c", 42, 57)] := by
    decide +kernel
  obtain ⟨ds, hds, hplaces⟩ := Outcome.map_eq_ok_iff.1 hshort
  obtain ⟨es, hes, hplaces'⟩ := Outcome.map_eq_ok_iff.1 hlong
  exact ⟨ds, es, hds, hes, hplaces, hplaces', stay_of_ofSource_append hds hes⟩

end Declaration

end ShaderInterface.Source
