import Mathlib.Data.List.DropRight
import ShaderInterface.Proofs.Places
import ShaderInterface.Proofs.Splitting

/-!
# Declarations by the grammar

The declarations of a source are those in its split. Each takes the spaces and tabs in front of it,
all that is left of the text before, so their places can be told from the text alone
(`declarationsFrom`). `Declaration.ofSource_grammar` puts this together with the split.
-/

namespace ShaderInterface.Source

open Text

/-- The declarations among lexemes that stand behind the text `before`. -/
def declarationsFrom (before : List Char) : List Lexeme → List Declaration
  | [] => []
  | .declaration keyword body semicolons :: ls =>
    let behind := before ++ keyword.word.toList ++ body ++ semicolons
    { keyword
      payload := String.ofList (trim body)
      start := byteCount (before.rdropWhile Outline.isIndent)
      stop := byteCount behind } :: declarationsFrom behind ls
  | l :: ls => declarationsFrom (before ++ l.text) ls

/-- A lexeme that is not a declaration only stands in front of the others. -/
theorem declarationsFrom_cons {before : List Char} {l : Lexeme} {ls : List Lexeme}
    (h : ∀ keyword body semicolons, l ≠ .declaration keyword body semicolons) :
    declarationsFrom before (l :: ls) = declarationsFrom (before ++ l.text) ls := by
  cases l with
  | declaration keyword body semicolons => exact absurd rfl (h keyword body semicolons)
  | _ => rfl

/-- The keyword of a lexeme that declares, or would if it had an end. -/
def Lexeme.keyword? : Lexeme → Option Keyword
  | declaration keyword .. | unterminated keyword _ => some keyword
  | _ => none

/-! ## Blanks in front of a declaration -/

/-- The lexemes begin with a declaration, or with spaces and tabs that go with one. -/
def beginsCut : List Lexeme → Bool
  | .declaration .. :: _ => true
  | .blank c :: ls => Outline.isIndent c && beginsCut ls
  | _ => false

/-- A declaration and what goes with it do not begin with a newline. -/
theorem head?_of_beginsCut {ls : List Lexeme} (h : beginsCut ls) :
    ∃ c ∈ (ls.flatMap Lexeme.text).head?, c ≠ '\n' := by
  cases ls with
  | nil => contradiction
  | cons l ls =>
    cases l with
    | declaration keyword body semicolons =>
      obtain ⟨c, cs, hword, hc, -⟩ := keyword.exists_toList_eq
      refine ⟨c, by simp [Lexeme.text, hword], ?_⟩
      rintro rfl
      exact absurd hc (by decide)
    | blank c =>
      rw [beginsCut, Bool.and_eq_true] at h
      refine ⟨c, rfl, ?_⟩
      rintro rfl
      exact absurd h.1 (by decide)
    | _ => contradiction

/-- Only a blank ends with an indent, unless nothing or a newline follows. -/
theorem Fits.not_isIndent_of_getLast? {before : List Lexeme} {rest : List Char} {l : Lexeme}
    (h : Fits before rest l) (hl : ∀ c, l ≠ .blank c) (hrest : ∃ c ∈ rest.head?, c ≠ '\n') :
    ∀ c ∈ l.text.getLast?, ¬ Outline.isIndent c := by
  obtain ⟨d, hd, hne⟩ := hrest
  intro c hc
  cases l with
  | newline | openParen | closeParen =>
    obtain rfl := Option.mem_some.1 hc
    decide
  | blank b => exact absurd rfl (hl b)
  | terminator b =>
    obtain rfl := Option.mem_some.1 hc
    have hterminators : [';', '{', '}'].all (!Outline.isIndent ·) := rfl
    simpa using List.all_eq_true.1 hterminators _ h
  | other b =>
    obtain rfl := Option.mem_some.1 hc
    obtain ⟨hmem, -⟩ := h
    simp only [List.mem_cons, not_or] at hmem
    simp [Outline.isIndent, hmem]
  | lineComment text =>
    obtain ⟨body, -, -, hend⟩ := h
    exact absurd (hend d hd) hne
  | directive text =>
    obtain ⟨-, -, -, hend⟩ := h
    exact absurd (hend d hd).1 hne
  | blockComment text =>
    obtain ⟨body, rfl, -⟩ | ⟨body, -, -, rfl⟩ := h
    · have hslash : ('/' :: '*' :: (body ++ ['*', '/'])).getLast? = some '/' := by
        rw [← List.cons_append, ← List.cons_append, List.getLast?_append]
        rfl
      rw [Lexeme.text, hslash] at hc
      obtain rfl := Option.mem_some.1 hc
      decide
    · contradiction
  | word w =>
    obtain ⟨⟨⟨b, bs, rfl, hb, hbs⟩, -⟩, -⟩ := h
    have hpart : isNamePart c := by
      rcases List.mem_cons.1 (List.mem_of_getLast? hc) with rfl | hmem
      · exact isNamePart_of_isNameStart hb
      · exact hbs c hmem
    rintro hindent
    rw [Outline.isIndent, Bool.or_eq_true, beq_iff_eq, beq_iff_eq] at hindent
    rcases hindent with rfl | rfl <;> exact absurd hpart (by decide)
  | declaration keyword body semicolons =>
    obtain ⟨-, -, hnil, hsemicolons, -⟩ := h
    have hlast : c ∈ semicolons.getLast? := by
      rw [Lexeme.text, List.getLast?_append, List.getLast?_eq_some_getLast hnil] at hc
      rwa [List.getLast?_eq_some_getLast hnil]
    rw [hsemicolons c (List.mem_of_getLast? hlast)]
    decide
  | unterminated keyword body =>
    obtain ⟨-, -, rfl⟩ := h
    contradiction

namespace Outline

/-- A lexeme that is neither a declaration nor a blank is put in front as text. -/
theorem addLexeme_eq_addText {l : Lexeme}
    (hdeclaration : ∀ keyword body semicolons, l ≠ .declaration keyword body semicolons)
    (hblank : ∀ c, l ≠ .blank c) (outline : Outline) :
    outline.addLexeme l = outline.addText l.text := by
  cases l with
  | declaration keyword body semicolons => exact absurd rfl (hdeclaration keyword body semicolons)
  | blank c => exact absurd rfl (hblank c)
  | _ => rfl

/-- An indent goes with a declaration that stands at once behind it. -/
theorem addBlank_of_lead_eq_nil {c : Char} (hc : isIndent c) (cut : Cut) (gap : List Char)
    (cuts : List (Cut × List Char)) :
    addBlank c ⟨[], (cut, gap) :: cuts⟩ =
      ⟨[], ({ cut with indent := c :: cut.indent }, gap) :: cuts⟩ := by
  rw [addBlank, if_pos hc]

/-- Any other blank is put in front as text. -/
theorem addBlank_eq_addText {c : Char} {outline : Outline}
    (h : ¬ (isIndent c ∧ outline.lead = [] ∧ outline.cuts ≠ [])) :
    outline.addBlank c = outline.addText [c] := by
  unfold addBlank
  split
  · next cut gap cuts =>
    have hc : ¬ isIndent c := fun hc => h ⟨hc, rfl, List.cons_ne_nil _ _⟩
    rw [if_neg hc]
    rfl
  · rfl

/-- Lexemes begin with a declaration, or with what goes with one, if nothing stands in front of
the first declaration of their outline. -/
theorem beginsCut_iff {ls : List Lexeme} (hls : ∀ l ∈ ls, l.text ≠ []) :
    beginsCut ls ↔ (ofLexemes ls).lead = [] ∧ (ofLexemes ls).cuts ≠ [] := by
  induction ls with
  | nil => exact iff_of_false Bool.false_ne_true fun h => h.2 rfl
  | cons l ls ih =>
    obtain ⟨hl, hrest⟩ := List.forall_mem_cons.1 hls
    rw [ofLexemes_cons]
    by_cases hdeclaration : ∃ keyword body semicolons, l = .declaration keyword body semicolons
    · obtain ⟨keyword, body, semicolons, rfl⟩ := hdeclaration
      exact iff_of_true rfl ⟨rfl, List.cons_ne_nil _ _⟩
    by_cases hblank : ∃ c, l = .blank c
    · obtain ⟨c, rfl⟩ := hblank
      rw [addLexeme, beginsCut, Bool.and_eq_true, ih hrest]
      generalize ofLexemes ls = outline
      by_cases h : isIndent c ∧ outline.lead = [] ∧ outline.cuts ≠ []
      · obtain ⟨lead, cuts⟩ := outline
        obtain ⟨hc, rfl, hcuts⟩ := h
        obtain ⟨⟨cut, gap⟩, cuts, rfl⟩ := List.exists_cons_of_ne_nil hcuts
        rw [addBlank_of_lead_eq_nil hc]
        exact iff_of_true ⟨hc, rfl, hcuts⟩ ⟨rfl, List.cons_ne_nil _ _⟩
      · rw [addBlank_eq_addText h]
        exact iff_of_false h fun h => List.cons_ne_nil _ _ h.1
    · have htext := addLexeme_eq_addText (fun k b s h => hdeclaration ⟨k, b, s, h⟩)
        (fun c h => hblank ⟨c, h⟩) (ofLexemes ls)
      rw [htext]
      refine iff_of_false ?_ fun h => hl (List.append_eq_nil_iff.1 h.1).1
      cases l with
      | declaration keyword body semicolons => exact absurd ⟨_, _, _, rfl⟩ hdeclaration
      | blank c => exact absurd ⟨_, rfl⟩ hblank
      | _ => exact Bool.false_ne_true

end Outline

namespace Declaration

/-- The declarations of an outline of what stands behind the text `before`, which may end with
spaces and tabs that go with the first of them. -/
def placeBehind (before : List Char) : Outline → List Declaration
  | ⟨[], (cut, gap) :: cuts⟩ =>
    { ofCut (byteCount before) cut with
      start := byteCount (before.rdropWhile Outline.isIndent) } ::
        placeFrom (byteCount before + byteCount cut.text + byteCount gap) cuts
  | ⟨lead, cuts⟩ => placeFrom (byteCount before + byteCount lead) cuts

/-- Behind text that does not end with spaces and tabs, nothing goes with the first declaration. -/
theorem placeBehind_of_not_isIndent {before : List Char}
    (h : ∀ c ∈ before.getLast?, ¬ Outline.isIndent c) (outline : Outline) :
    placeBehind before outline =
      placeFrom (byteCount before + byteCount outline.lead) outline.cuts := by
  have hdrop : before.rdropWhile Outline.isIndent = before := by
    rw [List.rdropWhile_eq_self_iff]
    exact fun hne => h _ (List.getLast?_eq_some_getLast hne)
  obtain ⟨lead, cuts⟩ := outline
  cases lead with
  | nil =>
    cases cuts with
    | nil => rfl
    | cons next cuts =>
      obtain ⟨cut, gap⟩ := next
      rw [placeBehind, hdrop]
      rfl
  | cons c lead => rfl

/-- With text in front of the first declaration, nothing from before goes with it. -/
theorem placeBehind_of_lead_ne_nil {outline : Outline} (h : outline.lead ≠ [])
    (before : List Char) : placeBehind before outline =
      placeFrom (byteCount before + byteCount outline.lead) outline.cuts := by
  obtain ⟨lead, cuts⟩ := outline
  cases lead with
  | nil => exact absurd rfl h
  | cons c lead => rfl

/-- Text that does not end with an indent moves over to the outline. -/
theorem placeBehind_addText {text : List Char} (hne : text ≠ []) (before : List Char)
    {outline : Outline}
    (h : outline.lead = [] → outline.cuts ≠ [] → ∀ c ∈ text.getLast?, ¬ Outline.isIndent c) :
    placeBehind before (outline.addText text) = placeBehind (before ++ text) outline := by
  have hbehind : placeBehind (before ++ text) outline =
      placeFrom (byteCount (before ++ text) + byteCount outline.lead) outline.cuts := by
    -- only a declaration that begins the outline can take anything from the text before it
    by_cases hlead : outline.lead = []
    · by_cases hcuts : outline.cuts = []
      · obtain ⟨lead, cuts⟩ := outline
        subst hlead hcuts
        rfl
      · refine placeBehind_of_not_isIndent ?_ outline
        rw [List.getLast?_append, List.getLast?_eq_some_getLast hne, Option.some_or,
          ← List.getLast?_eq_some_getLast hne]
        exact h hlead hcuts
    · exact placeBehind_of_lead_ne_nil hlead (before ++ text)
  have hlead : (outline.addText text).lead ≠ [] := fun hnil =>
    hne (List.append_eq_nil_iff.1 hnil).1
  rw [placeBehind_of_lead_ne_nil hlead, hbehind, Outline.addText, byteCount_append,
    byteCount_append, Nat.add_assoc]

/-- A blank moves over to the outline. -/
theorem placeBehind_addBlank (before : List Char) (c : Char) (outline : Outline) :
    placeBehind before (outline.addBlank c) = placeBehind (before ++ [c]) outline := by
  by_cases h : Outline.isIndent c ∧ outline.lead = [] ∧ outline.cuts ≠ []
  · obtain ⟨lead, cuts⟩ := outline
    obtain ⟨hc, rfl, hcuts⟩ := h
    obtain ⟨⟨cut, gap⟩, cuts, rfl⟩ := List.exists_cons_of_ne_nil hcuts
    have hstop : byteCount before + byteCount ({ cut with indent := c :: cut.indent } : Cut).text
        = byteCount (before ++ [c]) + byteCount cut.text := by
      have htext : ({ cut with indent := c :: cut.indent } : Cut).text = [c] ++ cut.text := rfl
      rw [htext, byteCount_append, byteCount_append, Nat.add_assoc]
    have hstart : (before ++ [c]).rdropWhile Outline.isIndent =
        before.rdropWhile Outline.isIndent := List.rdropWhile_concat_pos _ _ _ hc
    rw [Outline.addBlank_of_lead_eq_nil hc, placeBehind, placeBehind, hstart, ofCut, ofCut, hstop]
    rfl
  · rw [Outline.addBlank_eq_addText h]
    refine placeBehind_addText (List.cons_ne_nil c []) before fun hlead hcuts d hd => ?_
    obtain rfl := Option.mem_some.1 hd
    exact fun hc => h ⟨hc, hlead, hcuts⟩

/-- The declarations among lexemes are those of their outline. -/
theorem declarationsFrom_eq {earlier ls : List Lexeme} (hls : Everywhere Fits earlier [] ls)
    (before : List Char) :
    declarationsFrom before ls = placeBehind before (Outline.ofLexemes ls) := by
  induction ls generalizing earlier before with
  | nil => rfl
  | cons l ls ih =>
    obtain ⟨hl, hls⟩ := hls
    rw [List.append_nil] at hl
    rw [Outline.ofLexemes_cons]
    by_cases hdeclaration : ∃ keyword body semicolons, l = .declaration keyword body semicolons
    · obtain ⟨keyword, body, semicolons, rfl⟩ := hdeclaration
      obtain ⟨-, -, hne, hsemicolons, -⟩ := hl
      have hlast : ∀ c ∈ (before ++ keyword.word.toList ++ body ++ semicolons).getLast?,
          ¬ Outline.isIndent c := by
        rw [List.getLast?_append, List.getLast?_eq_some_getLast hne]
        intro c hc
        obtain rfl := Option.mem_some.1 hc
        rw [hsemicolons _ (List.getLast_mem hne)]
        decide
      have htext : before ++ keyword.word.toList ++ body ++ semicolons =
          before ++ Cut.text ⟨[], keyword, body, semicolons⟩ := by
        simp [Cut.text]
      rw [declarationsFrom, ih hls, placeBehind_of_not_isIndent hlast, htext, byteCount_append]
      rfl
    -- a blank may go with a declaration behind it, and any other lexeme is text between them
    by_cases hblank : ∃ c, l = .blank c
    · obtain ⟨c, rfl⟩ := hblank
      exact (ih hls (before ++ [c])).trans (placeBehind_addBlank before c _).symm
    · have hdeclaration := fun k b s h => hdeclaration ⟨k, b, s, h⟩
      have hblank := fun c h => hblank ⟨c, h⟩
      rw [Outline.addLexeme_eq_addText hdeclaration hblank,
        placeBehind_addText hl.text_ne_nil before, ← ih hls]
      · exact declarationsFrom_cons hdeclaration
      · intro hlead hcuts
        have hcut := (Outline.beginsCut_iff hls.text_ne_nil).2 ⟨hlead, hcuts⟩
        exact hl.not_isIndent_of_getLast? hblank (head?_of_beginsCut hcut)

end Declaration

/-! ## Declarations without an end -/

/-- All declarations among the lexemes have an end. -/
def Terminated (ls : List Lexeme) : Prop :=
  ∀ keyword body, .unterminated keyword body ∉ ls

/-- The lexemes behind the first have an end if all do. -/
theorem Terminated.of_cons {l : Lexeme} {ls : List Lexeme} (h : Terminated (l :: ls)) :
    Terminated ls :=
  fun keyword body hmem => h keyword body (List.mem_cons_of_mem l hmem)

/-- No declaration without an end is found where there is none. -/
theorem Outline.unterminated?_eq_none {ls : List Lexeme} (h : Terminated ls) (line : Nat) :
    unterminated? line ls = none := by
  induction ls generalizing line with
  | nil => rfl
  | cons l ls ih =>
    cases l with
    | unterminated keyword body => exact absurd List.mem_cons_self (h keyword body)
    | _ => exact ih h.of_cons _

/-- A declaration without an end is found behind lexemes of which none is one. -/
theorem Outline.unterminated?_concat {before : List Lexeme} (h : Terminated before) (line : Nat)
    (keyword : Keyword) (body : List Char) :
    unterminated? line (before ++ [.unterminated keyword body]) =
      some (keyword, line + (before.flatMap Lexeme.text).count '\n') := by
  induction before generalizing line with
  | nil => rfl
  | cons l before ih =>
    have hstep : unterminated? line (l :: (before ++ [.unterminated keyword body])) =
        unterminated? (line + l.text.count '\n') (before ++ [.unterminated keyword body]) := by
      cases l with
      | unterminated keyword body => exact absurd List.mem_cons_self (h keyword body)
      | _ => rfl
    rw [List.cons_append, hstep, ih h.of_cons, List.flatMap_cons, List.count_append, Nat.add_assoc]

/-- Nothing stands behind a declaration without an end. -/
theorem IsSplit.eq_nil_of_unterminated {cs : List Char} {before behind : List Lexeme}
    {keyword : Keyword} {body : List Char}
    (h : IsSplit cs (before ++ .unterminated keyword body :: behind)) : behind = [] := by
  obtain ⟨-, -, hrest⟩ := h.2 before _ behind rfl
  cases behind with
  | nil => rfl
  | cons l behind =>
    have hl := h.2 (before ++ [.unterminated keyword body]) l behind (by simp)
    rw [List.flatMap_cons] at hrest
    exact absurd (List.append_eq_nil_iff.1 hrest).1 hl.text_ne_nil

/-- All declarations of a split have an end, or else the last lexeme is the only one without. -/
theorem IsSplit.terminated_or {cs : List Char} {ls : List Lexeme} (h : IsSplit cs ls) :
    Terminated ls ∨ ∃ before keyword body, ls = before ++ [.unterminated keyword body] := by
  by_cases hends : Terminated ls
  · exact .inl hends
  · obtain ⟨keyword, body, hmem⟩ : ∃ keyword body, .unterminated keyword body ∈ ls := by
      simpa [Terminated] using hends
    obtain ⟨before, behind, rfl⟩ := List.append_of_mem hmem
    obtain rfl := h.eq_nil_of_unterminated
    exact .inr ⟨before, keyword, body, rfl⟩

/-! ## Words that declare -/

/-- A word is read as what it declares. -/
theorem keyword?_read {before : List Lexeme} {c : Char} {cs rest : List Char}
    (h : IsWord (c :: cs) rest) {keyword : Keyword} :
    (read (.behind before) c (cs ++ rest)).1.keyword? = some keyword ↔
      keyword.word.toList = c :: cs ∧ BeginsDeclaration before rest := by
  obtain ⟨⟨_, _, heq, hc, hcs⟩, hrest⟩ := h
  obtain ⟨rfl, rfl⟩ := List.cons.inj heq
  rw [read_name _ hc, readWord_append hcs hrest, ← Context.declares?_behind]
  cases (Context.behind before).declares? (c :: cs) rest with
  | none => simp [Lexeme.keyword?]
  | some keyword =>
    unfold readDeclaration
    dsimp only
    split <;> simp [Lexeme.keyword?]

/-- In a split, a word is a declaration if it is a keyword where a declaration begins. -/
theorem IsSplit.keyword?_eq_some_iff {cs : List Char} {before behind : List Lexeme} {l : Lexeme}
    (h : IsSplit cs (before ++ l :: behind)) {w rest : List Char}
    (htext : (l :: behind).flatMap Lexeme.text = w ++ rest) (hword : IsWord w rest)
    {keyword : Keyword} :
    l.keyword? = some keyword ↔ keyword.word.toList = w ∧ BeginsDeclaration before rest := by
  obtain ⟨⟨c, w, rfl, -⟩, -⟩ := id hword
  have hl := h.2 before l behind rfl
  have hread : read (.behind before) c (w ++ rest) = (l, behind.flatMap Lexeme.text) :=
    read_eq_of_fits hl htext
  rw [← keyword?_read hword, hread]

namespace Declaration

/-- The declarations of a source in which each has an end are those in its split. -/
theorem ofSource_of_terminated (stage : Stage) {source : String} {ls : List Lexeme}
    (hsplit : IsSplit source.toList ls) (h : Terminated ls) :
    ofSource stage source = .ok (declarationsFrom [] ls) := by
  have hplace := declarationsFrom_eq (isSplit_iff_everywhere.1 hsplit).2 []
  have hfirst := @placeBehind_of_not_isIndent [] nofun (Outline.ofLexemes ls)
  obtain rfl := isSplit_iff.1 hsplit
  rw [ofSource, Outline.ofSource, Outline.unterminated?_eq_none h, hplace, hfirst, byteCount_nil,
    Nat.zero_add, ← ofOutline_eq]
  rfl

/-- A source in which a declaration has no end has no declarations. -/
theorem ofSource_of_unterminated (stage : Stage) {source : String} {before : List Lexeme}
    {keyword : Keyword} {body : List Char}
    (hsplit : IsSplit source.toList (before ++ [.unterminated keyword body])) :
    ofSource stage source = .error (.unterminatedDeclaration stage keyword
      (1 + (before.flatMap Lexeme.text).count '\n')) := by
  have hbefore : Terminated before := by
    intro keyword' body' hmem
    obtain ⟨front, back, rfl⟩ := List.append_of_mem hmem
    rw [List.append_assoc, List.cons_append] at hsplit
    exact absurd hsplit.eq_nil_of_unterminated (by simp)
  rw [ofSource, Outline.ofSource, ← isSplit_iff.1 hsplit, Outline.unterminated?_concat hbefore]
  rfl

/-- A source has one split by the grammar. Its declarations are those in the split, each with the
spaces and tabs in front of it; they are refused if the last of them has no end, and then the line
of its keyword is told. A word is a declaration in the split if it is a keyword in front of a
blank, outside parentheses and where a statement begins. -/
theorem ofSource_grammar (stage : Stage) (source : String) :
    ∃ ls, (∀ ls', IsSplit source.toList ls' ↔ ls' = ls) ∧
      (∀ ds, ofSource stage source = .ok ds ↔ Terminated ls ∧ ds = declarationsFrom [] ls) ∧
      (∀ cause, ofSource stage source = .error cause ↔
        ∃ before keyword body, ls = before ++ [.unterminated keyword body] ∧
          cause = .unterminatedDeclaration stage keyword
            (1 + (before.flatMap Lexeme.text).count '\n')) ∧
      ∀ before l behind w rest, ls = before ++ l :: behind →
        (l :: behind).flatMap Lexeme.text = w ++ rest → IsWord w rest → ∀ keyword,
          l.keyword? = some keyword ↔ keyword.word.toList = w ∧ BeginsDeclaration before rest := by
  have hsplit : IsSplit source.toList (lexemes .start source.toList) := isSplit_lexemes _
  refine ⟨lexemes .start source.toList, fun ls => isSplit_iff, ?_⟩
  generalize lexemes .start source.toList = ls at hsplit
  have hwords : ∀ before l behind w rest, ls = before ++ l :: behind →
      (l :: behind).flatMap Lexeme.text = w ++ rest → IsWord w rest → ∀ keyword,
        l.keyword? = some keyword ↔ keyword.word.toList = w ∧ BeginsDeclaration before rest := by
    rintro before l behind w rest rfl htext hword keyword
    exact hsplit.keyword?_eq_some_iff htext hword
  obtain hends | ⟨before, keyword, body, rfl⟩ := hsplit.terminated_or
  · have hok := ofSource_of_terminated stage hsplit hends
    refine ⟨fun ds => ?_, fun cause => ?_, hwords⟩
    · rw [hok, Except.ok.injEq, eq_comm, and_iff_right hends]
    · rw [hok]
      constructor
      · nofun
      · rintro ⟨before, keyword, body, rfl, -⟩
        exact absurd (List.mem_append_right _ (List.mem_singleton_self _)) (hends keyword body)
  · have hends := fun hends : Terminated _ =>
      hends keyword body (List.mem_append_right before (List.mem_singleton_self _))
    have herror := ofSource_of_unterminated stage hsplit
    refine ⟨fun ds => ?_, fun cause => ?_, hwords⟩
    · rw [herror]
      exact iff_of_false nofun fun h => hends h.1
    · rw [herror, Except.error.injEq]
      constructor
      · rintro rfl
        exact ⟨before, keyword, body, rfl, rfl⟩
      · rintro ⟨before', keyword', body', h, rfl⟩
        obtain ⟨rfl, hl⟩ := List.append_inj' h rfl
        obtain ⟨rfl, -⟩ := Lexeme.unterminated.inj (List.cons.inj hl).1
        rfl

end Declaration

/-! ## Sources that declare nothing -/

/-- A text in which no keyword begins a declaration, with an end or without. -/
def DeclaresNothing (cs : List Char) : Prop :=
  ∀ l ∈ lexemes .start cs, l.keyword? = none

/-- A blank adds no declaration to an outline. -/
theorem Outline.cuts_addBlank_eq_nil_iff (c : Char) (outline : Outline) :
    (outline.addBlank c).cuts = [] ↔ outline.cuts = [] := by
  unfold addBlank
  split
  · split
    · exact iff_of_false (List.cons_ne_nil _ _) (List.cons_ne_nil _ _)
    · rfl
  · rfl

/-- An outline has no declarations if no lexeme has a keyword. -/
theorem Outline.cuts_eq_nil_iff {ls : List Lexeme} (hends : Terminated ls) :
    (ofLexemes ls).cuts = [] ↔ ∀ l ∈ ls, l.keyword? = none := by
  induction ls with
  | nil => exact iff_of_true rfl nofun
  | cons l ls ih =>
    rw [ofLexemes_cons, List.forall_mem_cons, ← ih hends.of_cons]
    cases l with
    | declaration keyword body semicolons =>
      exact iff_of_false (List.cons_ne_nil _ _) fun h => Option.some_ne_none _ h.1
    | unterminated keyword body => exact absurd List.mem_cons_self (hends keyword body)
    | blank c => exact (cuts_addBlank_eq_nil_iff c _).trans (and_iff_right rfl).symm
    | _ => exact (and_iff_right rfl).symm

/-- A source has no declarations if it declares nothing. -/
theorem Declaration.ofSource_eq_ok_nil_iff {stage : Stage} {source : String} :
    ofSource stage source = .ok [] ↔ DeclaresNothing source.toList := by
  have hsplit : IsSplit source.toList (lexemes .start source.toList) := isSplit_lexemes _
  rw [DeclaresNothing]
  obtain hends | ⟨before, keyword, body, hls⟩ := hsplit.terminated_or
  · rw [← Outline.cuts_eq_nil_iff hends, ofSource, Outline.ofSource,
      Outline.unterminated?_eq_none hends]
    show Except.ok (ofOutline _) = .ok [] ↔ _
    rw [Except.ok.injEq, ofOutline_eq, placeFrom_eq_nil_iff]
  · rw [hls] at hsplit ⊢
    rw [ofSource_of_unterminated stage hsplit]
    constructor
    · intro h
      contradiction
    · intro h
      have hnone := h (.unterminated keyword body) (List.mem_append_right _ List.mem_cons_self)
      exact absurd hnone (Option.some_ne_none keyword)

end ShaderInterface.Source
