import ShaderInterface.Proofs.Declared
import ShaderInterface.Source.Stripped

/-!
# Lexemes without the declarations

What is left of the lexemes of a source when its declarations are cut out and the placeholder is
put in place of the first one (`residueFrom`). The lexemes that are left still fit, but for one
kind: a `#` that stood behind a declaration on its line may now stand at the beginning of a line,
and be read as a directive (`everywhere_keeps_residueFrom`).
-/

namespace ShaderInterface.Source

open Text

/-! ## Other lexemes before -/

/-- The lexemes of the line that holds the placeholder. -/
def placeholderLine : List Lexeme :=
  [.other '@', .other '@', .other '@', .newline]

/-- The characters of that line. -/
def placeholderText : List Char :=
  placeholder.toList ++ ['\n']

/-- The lexemes of the line make up its text. -/
@[simp]
theorem flatMap_text_placeholderLine :
    placeholderLine.flatMap Lexeme.text = placeholderText := rfl

/-- What a lexeme behind `before` is, it is behind `before'`, too, unless it is a `#`: a line that
begins behind `before'` may not begin behind `before`, but then no parentheses are open. -/
structure Follows (before before' : List Lexeme) : Prop where
  openParens : openParens before = openParens before'
  opensStatement : OpensStatement before ↔ OpensStatement before'
  opensLine : OpensLine before → OpensLine before'
  exposed : OpensLine before' → OpensLine before ∨ Source.openParens before' = 0

/-- A lexeme fits where it stands, or is a `#` that begins a line outside parentheses. -/
def Keeps (before : List Lexeme) (rest : List Char) (l : Lexeme) : Prop :=
  Fits before rest l ∨ l = .other '#' ∧ OpensLine before ∧ openParens before = 0

/-- A lexeme keeps its meaning in front of the same character. -/
theorem Fits.keeps {before before' : List Lexeme} {rest rest' : List Char} {l : Lexeme}
    (h : Fits before rest l) (hbefore : Follows before before') (hrest : rest.head? = rest'.head?) :
    Keeps before' rest' l := by
  have hnil : rest = [] → rest' = [] := by
    rintro rfl
    exact List.head?_eq_none_iff.1 hrest.symm
  have hbegins : ∀ {body body' : List Char}, body.head? = body'.head? →
      (BeginsDeclaration before body ↔ BeginsDeclaration before' body') := by
    intro body body' hbody
    rw [BeginsDeclaration, BeginsDeclaration, hbody, hbefore.openParens, hbefore.opensStatement]
  cases l with
  | newline | openParen | closeParen | blank _ | terminator _ => exact .inl h
  | lineComment text =>
    obtain ⟨body, rfl, hbody, hend⟩ := h
    exact .inl ⟨body, rfl, hbody, hrest ▸ hend⟩
  | blockComment text =>
    obtain hclosed | ⟨body, rfl, hbody, hend⟩ := h
    · exact .inl (.inl hclosed)
    · exact .inl (.inr ⟨body, rfl, hbody, hnil hend⟩)
  | directive text =>
    obtain ⟨hline, hhash, htext, hend⟩ := h
    exact .inl ⟨hbefore.opensLine hline, hhash, htext, hrest ▸ hend⟩
  | word w =>
    obtain ⟨⟨hw, hend⟩, hdeclares⟩ := h
    refine .inl ⟨⟨hw, hrest ▸ hend⟩, ?_⟩
    rwa [← hbegins hrest]
  | declaration keyword body semicolons =>
    obtain ⟨hbody, hsemicolon, hne, hsemicolons, hend⟩ := h
    exact .inl ⟨(hbegins rfl).1 hbody, hsemicolon, hne, hsemicolons, hrest ▸ hend⟩
  | unterminated keyword body =>
    obtain ⟨hbody, hsemicolon, hend⟩ := h
    exact .inl ⟨(hbegins rfl).1 hbody, hsemicolon, hnil hend⟩
  | other c =>
    obtain ⟨hc, hname, hcomment, hdirective⟩ := h
    -- only a `#` looks at the beginning of the line
    by_cases hhash : c = '#' ∧ OpensLine before'
    · obtain ⟨rfl, hline⟩ := hhash
      exact .inr ⟨rfl, hline, (hbefore.exposed hline).resolve_left (hdirective rfl)⟩
    · exact .inl ⟨hc, hname, hrest ▸ hcomment, fun hc hline => hhash ⟨hc, hline⟩⟩

/-- A lexeme fits in front of the same character, behind lexemes of the same meaning. -/
theorem Fits.congr {before before' : List Lexeme} {rest rest' : List Char} {l : Lexeme}
    (h : Fits before rest l) (hbefore : Follows before before')
    (hline : OpensLine before' → OpensLine before) (hrest : rest.head? = rest'.head?) :
    Fits before' rest' l := by
  obtain hfits | ⟨rfl, hhash, -⟩ := h.keeps hbefore hrest
  · exact hfits
  · obtain ⟨-, -, -, hdirective⟩ := h
    exact absurd (hline hhash) (hdirective rfl)

namespace Follows

variable {before before' : List Lexeme}

/-- Lexemes have the meaning of themselves. -/
theorem refl (before : List Lexeme) : Follows before before :=
  ⟨rfl, Iff.rfl, id, .inl⟩

/-- The same lexeme behind both has the same effect. -/
theorem concat (h : Follows before before') (l : Lexeme) :
    Follows (before ++ [l]) (before' ++ [l]) where
  openParens := by
    rw [openParens_concat, openParens_concat, h.openParens]
  opensStatement := by
    by_cases hl : l.isTrivia
    · rw [opensStatement_concat_trivia hl, opensStatement_concat_trivia hl, h.opensStatement]
    · rw [opensStatement_concat_significant hl, opensStatement_concat_significant hl]
  opensLine := by
    rw [opensLine_concat, opensLine_concat]
    exact Or.imp_right (And.imp_right h.opensLine)
  exposed := by
    rw [opensLine_concat, opensLine_concat]
    rintro (hbreak | ⟨htrivia, hline⟩)
    · exact .inl (.inl hbreak)
    · refine (h.exposed hline).imp (fun hline => .inr ⟨htrivia, hline⟩) fun hparens => ?_
      rw [openParens_concat, Lexeme.depthBehind_of_isTrivia htrivia, hparens]

/-- A blank that is left out makes no difference. -/
theorem concat_blank (h : Follows before before') (c : Char) :
    Follows (before ++ [.blank c]) before' where
  openParens := (openParens_concat before _).trans h.openParens
  opensStatement := by
    rw [opensStatement_concat_trivia rfl, ← h.opensStatement]
    simp [Lexeme.breaksLine]
  opensLine := by
    rw [opensLine_concat]
    rintro (hbreak | ⟨-, hline⟩)
    · contradiction
    · exact h.opensLine hline
  exposed := by
    rw [opensLine_concat]
    exact fun hline => (h.exposed hline).imp_left fun hline => .inr ⟨rfl, hline⟩

/-- A declaration that is left out makes no difference where a statement begins. -/
theorem concat_declaration (h : Follows before before') (keyword : Keyword) {body : List Char}
    (hbegins : BeginsDeclaration before body) (semicolons : List Char) :
    Follows (before ++ [.declaration keyword body semicolons]) before' where
  openParens := (openParens_concat before _).trans h.openParens
  opensStatement := by
    rw [opensStatement_concat_significant (l := .declaration ..) Bool.false_ne_true]
    exact iff_of_true rfl (h.opensStatement.1 hbegins.2.2)
  opensLine := by
    rw [opensLine_concat]
    rintro (hbreak | ⟨htrivia, -⟩)
    · contradiction
    · contradiction
  exposed := by
    rw [← h.openParens]
    exact fun _ => .inr hbegins.2.1

/-- Behind the line of the placeholder a statement and a line begin. -/
theorem append_placeholderLine (h : Follows before before') (hstatement : OpensStatement before)
    (hline : OpensLine before ∨ Source.openParens before = 0) :
    Follows before (before' ++ placeholderLine) := by
  have hparens : Source.openParens before = Source.openParens (before' ++ placeholderLine) := by
    rw [h.openParens, Source.openParens, Source.openParens, List.foldl_append]
    rfl
  have hconcat : before' ++ placeholderLine =
      before' ++ [.other '@', .other '@', .other '@'] ++ [.newline] := by
    simp [placeholderLine]
  refine ⟨hparens, ?_, ?_, fun _ => hparens ▸ hline⟩
  · rw [hconcat, opensStatement_concat_trivia rfl]
    exact iff_of_true hstatement (.inl rfl)
  · rw [hconcat, opensLine_concat]
    exact fun _ => .inl rfl

end Follows

/-! ## What is left -/

/-- The lexemes without the declarations and what goes with them. The placeholder stands in the
place of the first one, unless it is `marked` before. -/
def residueFrom (marked : Bool) : List Lexeme → List Lexeme
  | [] => []
  | .declaration .. :: ls => (if marked then [] else placeholderLine) ++ residueFrom true ls
  | .blank c :: ls =>
    if beginsCut (.blank c :: ls) then residueFrom marked ls
    else .blank c :: residueFrom marked ls
  | l :: ls => l :: residueFrom marked ls

/-- What does not begin a cut is left. -/
theorem residueFrom_of_not_beginsCut {l : Lexeme} {ls : List Lexeme} (h : ¬ beginsCut (l :: ls))
    (marked : Bool) : residueFrom marked (l :: ls) = l :: residueFrom marked ls := by
  cases l with
  | declaration keyword body semicolons => exact absurd rfl h
  | blank c => exact if_neg h
  | _ => rfl

/-- What does not begin a cut declares nothing. -/
theorem keyword?_of_not_beginsCut {l : Lexeme} {ls : List Lexeme} (h : ¬ beginsCut (l :: ls))
    (hends : Terminated (l :: ls)) : l.keyword? = none := by
  cases l with
  | declaration keyword body semicolons => exact absurd rfl h
  | unterminated keyword body => exact absurd List.mem_cons_self (hends keyword body)
  | _ => rfl

/-- In front of a declaration a statement begins. -/
theorem opensStatement_of_beginsCut {before ls : List Lexeme} (hls : Everywhere Fits before [] ls)
    (h : beginsCut ls) : OpensStatement before := by
  induction ls generalizing before with
  | nil => contradiction
  | cons l ls ih =>
    obtain ⟨hl, hls⟩ := hls
    cases l with
    | declaration keyword body semicolons => exact hl.1.2.2
    | blank c =>
      rw [beginsCut, Bool.and_eq_true] at h
      have hstatement := ih hls h.2
      rw [opensStatement_concat_trivia rfl] at hstatement
      exact hstatement.resolve_left Bool.false_ne_true
    | _ => contradiction

/-- A lexeme in front of a declaration fits in front of anything. -/
theorem Fits.of_beginsCut {before ls : List Lexeme} {l : Lexeme}
    (h : Fits before (ls.flatMap Lexeme.text) l) (hls : Everywhere Fits (before ++ [l]) [] ls)
    (hcut : beginsCut ls) (hl : l.keyword? = none) (before' : List Lexeme) (rest' : List Char) :
    Fits before' rest' l := by
  obtain ⟨d, hd, hne⟩ := head?_of_beginsCut hcut
  have hstatement := opensStatement_of_beginsCut hls hcut
  cases l with
  | newline | openParen | closeParen | blank _ | terminator _ => exact h
  | lineComment text =>
    obtain ⟨body, -, -, hend⟩ := h
    exact absurd (hend d hd) hne
  | directive text =>
    obtain ⟨-, -, -, hend⟩ := h
    exact absurd (hend d hd).1 hne
  | blockComment text =>
    obtain hclosed | ⟨body, -, -, hend⟩ := h
    · exact .inl hclosed
    · rw [hend] at hd
      contradiction
  | word w =>
    rw [opensStatement_concat_significant (l := .word w) Bool.false_ne_true] at hstatement
    contradiction
  | other c =>
    rw [opensStatement_concat_significant (l := .other c) Bool.false_ne_true] at hstatement
    contradiction
  | declaration keyword body semicolons => contradiction
  | unterminated keyword body => contradiction

/-- What is left begins as before, unless a declaration stood there. -/
theorem head?_residueFrom {ls : List Lexeme} (h : ¬ beginsCut ls) (hls : ∀ l ∈ ls, l.text ≠ [])
    (marked : Bool) :
    ((residueFrom marked ls).flatMap Lexeme.text).head? = (ls.flatMap Lexeme.text).head? := by
  cases ls with
  | nil => rfl
  | cons l ls =>
    obtain ⟨c, cs, htext⟩ := List.exists_cons_of_ne_nil (hls l List.mem_cons_self)
    rw [residueFrom_of_not_beginsCut h, List.flatMap_cons, List.flatMap_cons, htext]
    rfl

/-- The line of the placeholder fits anywhere. -/
theorem everywhere_fits_placeholderLine (before : List Lexeme) (tail : List Char) :
    Everywhere Fits before tail placeholderLine := by
  have hmark : ∀ before rest, Fits before rest (.other '@') := by
    intro before rest
    exact ⟨by decide, by decide, fun h => absurd h (by decide), fun h => absurd h (by decide)⟩
  exact ⟨hmark _ _, hmark _ _, hmark _ _, trivial, trivial⟩

/-- What is left keeps its meaning. -/
theorem everywhere_keeps_residueFrom {before before' ls : List Lexeme}
    (hls : Everywhere Fits before [] ls) (hends : Terminated ls) (h : Follows before before')
    (marked : Bool) :
    Everywhere Keeps before' [] (residueFrom marked ls) := by
  induction ls generalizing before before' marked with
  | nil => trivial
  | cons l ls ih =>
    obtain ⟨hl, hls⟩ := hls
    rw [List.append_nil] at hl
    by_cases hcut : beginsCut (l :: ls)
    · -- what is cut out changes what stands before the others, but not its meaning
      cases l with
      | declaration keyword body semicolons =>
        have hbehind := h.concat_declaration keyword hl.1 semicolons
        cases marked with
        | true => exact ih hls hends.of_cons hbehind true
        | false =>
          have hstatement : OpensStatement (before ++ [.declaration keyword body semicolons]) :=
            (opensStatement_concat_significant (l := .declaration keyword body semicolons)
              Bool.false_ne_true).2 rfl
          have hmark := everywhere_fits_placeholderLine before'
            ((residueFrom true ls).flatMap Lexeme.text ++ [])
          refine everywhere_append.2 ⟨hmark.imp fun _ _ _ => .inl, ?_⟩
          have hparens : openParens (before ++ [.declaration keyword body semicolons]) = 0 :=
            (openParens_concat before _).trans hl.1.2.1
          have hmarked := hbehind.append_placeholderLine hstatement (.inr hparens)
          exact ih hls hends.of_cons hmarked true
      | blank c =>
        rw [residueFrom, if_pos hcut]
        exact ih hls hends.of_cons (h.concat_blank c) marked
      | _ => contradiction
    · rw [residueFrom_of_not_beginsCut hcut]
      refine ⟨?_, ih hls hends.of_cons (h.concat l) marked⟩
      rw [List.append_nil]
      -- in front of a cut the text behind `l` changes, and then `l` does not look at it
      by_cases hnext : beginsCut ls
      · have hkeyword := keyword?_of_not_beginsCut hcut hends
        exact .inl (hl.of_beginsCut hls hnext hkeyword _ _)
      · exact hl.keeps h (head?_residueFrom hnext hls.text_ne_nil marked).symm

/-- No declaration is left. -/
theorem keyword?_of_mem_residueFrom {ls : List Lexeme} (hends : Terminated ls) (marked : Bool) :
    ∀ l ∈ residueFrom marked ls, l.keyword? = none := by
  induction ls generalizing marked with
  | nil => nofun
  | cons l ls ih =>
    have hls := ih hends.of_cons
    by_cases hcut : beginsCut (l :: ls)
    · cases l with
      | declaration keyword body semicolons =>
        have hmark : ∀ l ∈ placeholderLine, l.keyword? = none := by decide
        cases marked with
        | true => exact hls true
        | false => exact List.forall_mem_append.2 ⟨hmark, hls true⟩
      | blank c =>
        rw [residueFrom, if_pos hcut]
        exact hls marked
      | _ => contradiction
    · rw [residueFrom_of_not_beginsCut hcut]
      refine List.forall_mem_cons.2 ⟨?_, hls marked⟩
      exact keyword?_of_not_beginsCut hcut hends

/-! ## The text that is left -/

/-- The text of an outline without its declarations; the line of the placeholder stands in the
place of the first one, unless it is `marked` before. -/
def Outline.without (marked : Bool) (outline : Outline) : List Char :=
  outline.lead ++ (if marked || outline.cuts.isEmpty then [] else placeholderText)
    ++ outline.cuts.flatMap (·.2)

namespace Outline

/-- Text in front of an outline is left. -/
theorem without_addText (marked : Bool) (text : List Char) (outline : Outline) :
    (outline.addText text).without marked = text ++ outline.without marked := by
  rw [without, without, List.append_assoc outline.lead, ← List.append_assoc text]
  exact List.append_assoc ..

/-- What does not begin a cut is put in front as text. -/
theorem addLexeme_of_not_beginsCut {l : Lexeme} {ls : List Lexeme} (hls : ∀ m ∈ ls, m.text ≠ [])
    (h : ¬ beginsCut (l :: ls)) : (ofLexemes ls).addLexeme l = (ofLexemes ls).addText l.text := by
  cases l with
  | declaration keyword body semicolons => exact absurd rfl h
  | blank c =>
    rw [beginsCut, Bool.and_eq_true, beginsCut_iff hls] at h
    exact addBlank_eq_addText h
  | _ => rfl

end Outline

/-- What is left of the lexemes is what is left of the text. -/
theorem flatMap_text_residueFrom {ls : List Lexeme} (hls : ∀ l ∈ ls, l.text ≠ []) (marked : Bool) :
    (residueFrom marked ls).flatMap Lexeme.text = (Outline.ofLexemes ls).without marked := by
  induction ls generalizing marked with
  | nil =>
    rw [Outline.without, Bool.or_comm]
    rfl
  | cons l ls ih =>
    obtain ⟨-, hrest⟩ := List.forall_mem_cons.1 hls
    rw [Outline.ofLexemes_cons]
    by_cases hcut : beginsCut (l :: ls)
    · cases l with
      | declaration keyword body semicolons =>
        rw [residueFrom, List.flatMap_append, ih hrest]
        cases marked with
        | true => rw [Outline.without, Bool.true_or]; simp [Outline.without, Outline.addLexeme]
        | false => simp [Outline.without, Outline.addLexeme]
      | blank c =>
        rw [residueFrom, if_pos hcut, ih hrest]
        rw [beginsCut, Bool.and_eq_true, Outline.beginsCut_iff hrest] at hcut
        generalize Outline.ofLexemes ls = outline at hcut
        obtain ⟨lead, cuts⟩ := outline
        obtain ⟨hc, rfl, hcuts⟩ := hcut
        obtain ⟨⟨cut, gap⟩, cuts, rfl⟩ := List.exists_cons_of_ne_nil hcuts
        rw [Outline.addLexeme, Outline.addBlank_of_lead_eq_nil hc]
        rfl
      | _ => contradiction
    · rw [residueFrom_of_not_beginsCut hcut, Outline.addLexeme_of_not_beginsCut hrest hcut,
        Outline.without_addText, List.flatMap_cons, ih hrest]

/-- The stripped text of a source with declarations is the text that is left. -/
theorem Stripped.toList_text_ofOutline {outline : Outline} (h : outline.cuts ≠ []) :
    (Stripped.ofOutline outline).text.toList = outline.without false := by
  have hcuts : outline.cuts.isEmpty = false := by
    rwa [List.isEmpty_eq_false_iff]
  rw [Stripped.text, Stripped.toList_inject, Stripped.ofOutline, hcuts, Outline.without, hcuts]
  simp [placeholderText]

end ShaderInterface.Source
