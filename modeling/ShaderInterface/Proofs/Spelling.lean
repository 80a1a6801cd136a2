import ShaderInterface.Proofs.Declared

/-!
# How declarations are spelled

A declaration of a source stands somewhere in the source, and its text says what it declares.
`Spelling` is the text of a declaration with what stands before and behind it, and
`Declaration.exists_spelling` finds one for each declaration of a source. The declarations stand one
behind the other and share no byte (`Declaration.pairwise_stop_le`), so a source has at most as many
of them as it has bytes (`Declaration.length_le_of_ofSource`).
-/

namespace ShaderInterface.Source

open Text

/-- A declaration as it is spelled in a source: spaces and tabs, the keyword, a blank, a body without
semicolons, and the semicolons that end it. Spaces, tabs and semicolons are taken as far as they
go. -/
structure Spelling where
  before : List Char
  indent : List Char
  keyword : Keyword
  gap : Char
  body : List Char
  semicolons : List Char
  behind : List Char
  indent_mem : ∀ c ∈ indent, c ∈ [' ', '\t']
  gap_mem : gap ∈ ['\t', '\n', '\x0c', '\r', ' ']
  notMem_body : ';' ∉ body
  semicolons_ne_nil : semicolons ≠ []
  eq_semicolon : ∀ c ∈ semicolons, c = ';'
  before_notMem : ∀ c ∈ before.getLast?, c ∉ [' ', '\t']
  behind_ne : ∀ c ∈ behind.head?, c ≠ ';'

namespace Spelling

/-- The characters that the declaration takes. -/
def span (s : Spelling) : List Char :=
  s.indent ++ s.keyword.word.toList ++ s.gap :: s.body ++ s.semicolons

/-- The source in which the declaration stands. -/
def text (s : Spelling) : List Char :=
  s.before ++ (s.span ++ s.behind)

/-- What is declared, and the bytes that declare it. -/
def declaration (s : Spelling) : Declaration where
  keyword := s.keyword
  payload := String.ofList (trim (s.gap :: s.body))
  start := byteCount s.before
  stop := byteCount s.before + byteCount s.span

/-- The bytes of a declaration are those of its characters. -/
theorem slice_declaration (s : Spelling) {source : String} (h : s.text = source.toList) :
    slice source s.declaration.start s.declaration.stop = Code.utf8 (String.ofList s.span) :=
  slice_eq h.symm

end Spelling

/-- Every character takes some bytes. -/
theorem length_le_byteCount (cs : List Char) : cs.length ≤ byteCount cs := by
  induction cs with
  | nil => exact Nat.le_refl 0
  | cons c cs ih =>
    have hpos : 0 < byteCount [c] := by
      simpa [byteCount] using c.utf8Size_pos
    have hcons : byteCount (c :: cs) = byteCount [c] + byteCount cs := byteCount_append [c] cs
    rw [hcons, List.length_cons]
    omega

/-- Text from which the blanks at the end are taken does not end with one. -/
theorem not_of_mem_getLast?_rdropWhile {p : Char → Bool} {cs : List Char} {c : Char}
    (h : c ∈ (cs.rdropWhile p).getLast?) : ¬ p c := by
  rw [List.rdropWhile, List.getLast?_reverse] at h
  exact not_of_mem_head?_dropWhile h

namespace Declaration

/-! ## Spellings -/

/-- A declaration that fits behind the text `before` is spelled there, with the spaces and tabs at
the end of that text. -/
theorem exists_spelling_of_fits {earlier : List Lexeme} {body semicolons rest : List Char}
    {keyword : Keyword} (h : Fits earlier rest (.declaration keyword body semicolons))
    (before : List Char) :
    ∃ s : Spelling, s.text = before ++ keyword.word.toList ++ body ++ semicolons ++ rest ∧
      s.declaration =
        { keyword
          payload := String.ofList (trim body)
          start := byteCount (before.rdropWhile Outline.isIndent)
          stop := byteCount (before ++ keyword.word.toList ++ body ++ semicolons) } := by
  obtain ⟨⟨⟨gap, hgap, hblank⟩, -⟩, hbody, hne, hsemicolons, hrest⟩ := h
  obtain ⟨body, rfl⟩ := List.head?_eq_some_iff.1 (Option.mem_def.1 hgap)
  have hparts : before.rdropWhile Outline.isIndent ++ before.rtakeWhile Outline.isIndent = before :=
    List.rdropWhile_append_rtakeWhile
  have hindent : ∀ c, Outline.isIndent c ↔ c ∈ [' ', '\t'] := by
    simp [Outline.isIndent]
  let s : Spelling := {
    before := before.rdropWhile Outline.isIndent
    indent := before.rtakeWhile Outline.isIndent
    keyword, gap, body, semicolons
    behind := rest
    indent_mem := fun c hc => (hindent c).1 (List.mem_rtakeWhile_imp hc)
    gap_mem := hblank
    notMem_body := fun hmem => hbody (List.mem_cons_of_mem gap hmem)
    semicolons_ne_nil := hne
    eq_semicolon := hsemicolons
    before_notMem := fun c hc hmem => not_of_mem_getLast?_rdropWhile hc ((hindent c).2 hmem)
    behind_ne := hrest }
  have hspan : s.before ++ s.span = before ++ keyword.word.toList ++ gap :: body ++ semicolons := by
    rw [Spelling.span, ← List.append_assoc, ← List.append_assoc, ← List.append_assoc, hparts]
  refine ⟨s, ?_, ?_⟩
  · rw [Spelling.text, ← List.append_assoc, hspan]
  · rw [← hspan, byteCount_append]
    rfl

/-- Each declaration among lexemes that stand behind the text `before` is spelled in the text of
all. -/
theorem exists_spelling_of_everywhere {earlier ls : List Lexeme}
    (h : Everywhere Fits earlier [] ls) {before : List Char} {d : Declaration}
    (hd : d ∈ declarationsFrom before ls) :
    ∃ s : Spelling, s.text = before ++ ls.flatMap Lexeme.text ∧ s.declaration = d := by
  induction ls generalizing earlier before with
  | nil => contradiction
  | cons l ls ih =>
    obtain ⟨hl, hls⟩ := h
    rw [List.append_nil] at hl
    have hlater : ∀ {before' : List Char}, before' = before ++ l.text →
        d ∈ declarationsFrom before' ls →
        ∃ s : Spelling, s.text = before ++ (l :: ls).flatMap Lexeme.text ∧ s.declaration = d := by
      rintro _ rfl hd
      rw [List.flatMap_cons, ← List.append_assoc]
      exact ih hls hd
    by_cases hdeclaration : ∃ keyword body semicolons, l = .declaration keyword body semicolons
    · obtain ⟨keyword, body, semicolons, rfl⟩ := hdeclaration
      rcases List.mem_cons.1 hd with rfl | hd
      · obtain ⟨s, htext, hs⟩ := exists_spelling_of_fits hl before
        refine ⟨s, ?_, hs⟩
        rw [htext, List.flatMap_cons, Lexeme.text]
        simp only [List.append_assoc]
      · refine hlater ?_ hd
        simp only [Lexeme.text, List.append_assoc]
    · rw [declarationsFrom_cons fun k b s hl => hdeclaration ⟨k, b, s, hl⟩] at hd
      exact hlater rfl hd

variable {stage : Stage} {source : String} {ds : List Declaration}

/-- The declarations of a source are found among its lexemes. -/
theorem eq_declarationsFrom_of_ofSource (h : ofSource stage source = .ok ds) :
    ds = declarationsFrom [] (lexemes .start source.toList) := by
  obtain hends | ⟨before, keyword, body, hls⟩ := (isSplit_lexemes source.toList).terminated_or
  · rw [ofSource_of_terminated stage (isSplit_lexemes _) hends] at h
    exact (Except.ok.inj h).symm
  · have hsplit := isSplit_lexemes source.toList
    rw [hls] at hsplit
    rw [ofSource_of_unterminated stage hsplit] at h
    contradiction

/-- Each declaration of a source is spelled in it. -/
theorem exists_spelling (h : ofSource stage source = .ok ds) {d : Declaration} (hd : d ∈ ds) :
    ∃ s : Spelling, s.text = source.toList ∧ s.declaration = d := by
  rw [eq_declarationsFrom_of_ofSource h] at hd
  have hspelling := exists_spelling_of_everywhere (everywhere_fits_start source.toList) hd
  rwa [flatMap_text_lexemes] at hspelling

/-! ## Places -/

/-- A declaration takes at least the bytes of its keyword, and stands inside of the source. -/
theorem start_lt_stop (h : ofSource stage source = .ok ds) {d : Declaration} (hd : d ∈ ds) :
    d.start < d.stop ∧ d.stop ≤ source.utf8ByteSize := by
  obtain ⟨s, htext, rfl⟩ := exists_spelling h hd
  have hsize := congrArg byteCount htext
  rw [Spelling.text, byteCount_append, byteCount_append, byteCount_toList] at hsize
  have hspan := length_le_byteCount s.span
  have hlength : 0 < s.span.length := by
    refine List.length_pos_iff.2 fun hnil => ?_
    simp [Spelling.span] at hnil
  simp only [Spelling.declaration]
  omega

/-- Declarations that are placed from the byte `start` on begin there or behind. -/
theorem le_start_of_mem_placeFrom {start : Nat} {cuts : List (Cut × List Char)} {d : Declaration}
    (hd : d ∈ placeFrom start cuts) : start ≤ d.start := by
  induction cuts generalizing start with
  | nil => contradiction
  | cons next cuts ih =>
    rcases List.mem_cons.1 hd with rfl | hd
    · exact Nat.le_refl start
    · have hstart := ih hd
      omega

/-- Declarations that are placed one after the other share no byte. -/
theorem pairwise_placeFrom (start : Nat) (cuts : List (Cut × List Char)) :
    (placeFrom start cuts).Pairwise fun d e => d.stop ≤ e.start := by
  induction cuts generalizing start with
  | nil => exact .nil
  | cons next cuts ih =>
    refine List.pairwise_cons.2 ⟨fun e he => ?_, ih _⟩
    have hstart := le_start_of_mem_placeFrom he
    simp only [ofCut]
    omega

/-- Each declaration of a source ends before the next ones begin. -/
theorem pairwise_stop_le (h : ofSource stage source = .ok ds) :
    ds.Pairwise fun d e => d.stop ≤ e.start := by
  obtain ⟨outline, -, rfl⟩ := ofSource_eq_ok_iff.1 h
  rw [ofOutline_eq]
  exact pairwise_placeFrom _ _

/-- Between the bytes `start` and `stop` there are at most as many declarations as bytes. -/
theorem length_le_of_pairwise {ds : List Declaration} {start stop : Nat}
    (hinside : ∀ d ∈ ds, start ≤ d.start ∧ d.start < d.stop ∧ d.stop ≤ stop)
    (hds : ds.Pairwise fun d e => d.stop ≤ e.start) : ds.length ≤ stop - start := by
  induction ds generalizing start with
  | nil => exact Nat.zero_le _
  | cons d ds ih =>
    obtain ⟨⟨hstart, hlt, hstop⟩, hinside⟩ := List.forall_mem_cons.1 hinside
    obtain ⟨hfirst, hds⟩ := List.pairwise_cons.1 hds
    have hbehind : ∀ e ∈ ds, d.stop ≤ e.start ∧ e.start < e.stop ∧ e.stop ≤ stop :=
      fun e he => ⟨hfirst e he, (hinside e he).2⟩
    have hrest := ih hbehind hds
    rw [List.length_cons]
    omega

/-- A source has at most as many declarations as bytes. -/
theorem length_le_of_ofSource (h : ofSource stage source = .ok ds) :
    ds.length ≤ source.utf8ByteSize :=
  length_le_of_pairwise (fun _ hd => ⟨Nat.zero_le _, start_lt_stop h hd⟩) (pairwise_stop_le h)

end Declaration

end ShaderInterface.Source
