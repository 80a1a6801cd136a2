import ShaderInterface.Proofs.Insertion

/-!
# Stripped sources read again

A stripped source has no declarations left, but three kinds of text can come to be read as code
that were not before: what follows a directive that only the cut of a declaration made, what a
backslash continued in a leading `#version` directive, and a keyword at the very end
(`Resurfaces`). `Stripped.ofSource_text_eq_nil_iff` says that a stripped source declares nothing
exactly if none of these texts declares anything as a source of its own.
-/

namespace ShaderInterface.Source

open Text

/-- The text `rest` comes to be read as code when the stripped source is read. -/
inductive Resurfaces (source : String) : List Char → Prop
  /-- The first `#` that begins a line only where a declaration was cut out begins a directive. It
  may take the beginning of a comment with it, and leave what the comment holds. -/
  | hash {pre post : List Lexeme}
      (hleft : residueFrom false (lexemes .start source.toList) = pre ++ .other '#' :: post)
      (hline : OpensLine pre)
      (hfirst : ∀ front back, pre = front ++ .other '#' :: back → ¬ OpensLine front) :
      Resurfaces source (readDirective '#' (post.flatMap Lexeme.text)).2
  /-- A leading `#version` line that ends inside of a directive gives the placeholder to it. -/
  | version {line rest xs ys : List Char} {before behind : List Lexeme}
      (hnothing : DeclaresNothing source.toList)
      (hversion : splitVersionLine? source.toList = some (line, rest))
      (hsplit : lexemes .start source.toList = before ++ .directive (xs ++ '\n' :: ys) :: behind)
      (hline : before.flatMap Lexeme.text ++ xs = line) : Resurfaces source rest
  /-- A keyword at the end of a leading `#version` line gets a newline behind it. -/
  | keyword {before : List Lexeme} {keyword : Keyword}
      (hnothing : DeclaresNothing source.toList)
      (hversion : splitVersionLine? source.toList = some (source.toList, []))
      (hsplit : lexemes .start source.toList = before ++ [.word keyword.word.toList])
      (hparens : openParens before = 0) (hstatement : OpensStatement before) :
      Resurfaces source (keyword.word.toList ++ ['\n'])

/-! ## A `#` that begins a line -/

/-- Lexemes that keep their meaning all fit, or there is a first `#` that begins a line. -/
theorem Everywhere.fits_or_first_hash {before ls : List Lexeme} {tail : List Char}
    (h : Everywhere Keeps before tail ls) :
    Everywhere Fits before tail ls ∨ ∃ pre post, ls = pre ++ .other '#' :: post ∧
      OpensLine (before ++ pre) ∧
        ∀ front back, pre = front ++ .other '#' :: back → ¬ OpensLine (before ++ front) := by
  induction ls generalizing before with
  | nil => exact .inl trivial
  | cons l ls ih =>
    by_cases hhash : l = .other '#' ∧ OpensLine before
    · obtain ⟨rfl, hline⟩ := hhash
      refine .inr ⟨[], ls, rfl, by rwa [List.append_nil], fun front back hfront => ?_⟩
      exact absurd hfront.symm (List.append_ne_nil_of_right_ne_nil _ (List.cons_ne_nil _ _))
    · obtain ⟨hl, hls⟩ := h
      have hl := hl.resolve_right fun hl => hhash ⟨hl.1, hl.2.1⟩
      rcases ih hls with hfits | ⟨pre, post, rfl, hline, hfirst⟩
      · exact .inl ⟨hl, hfits⟩
      · rw [List.append_assoc] at hline
        refine .inr ⟨l :: pre, post, rfl, hline, fun front back hfront hopens => ?_⟩
        cases front with
        | nil =>
          rw [List.append_nil] at hopens
          exact hhash ⟨(List.cons.inj hfront).1, hopens⟩
        | cons m front =>
          obtain ⟨rfl, rfl⟩ := List.cons.inj hfront
          refine hfirst front back rfl ?_
          rwa [List.append_assoc]

/-- Behind the first `#` that begins a line, a text declares what follows the directive. -/
theorem declaresNothing_hash_iff {pre post : List Lexeme}
    (hkeeps : Everywhere Keeps [] [] (pre ++ .other '#' :: post))
    (hnone : ∀ l ∈ pre, l.keyword? = none) (hline : OpensLine pre)
    (hfirst : ∀ front back, pre = front ++ .other '#' :: back → ¬ OpensLine front) :
    DeclaresNothing ((pre ++ .other '#' :: post).flatMap Lexeme.text) ↔
      DeclaresNothing (readDirective '#' (post.flatMap Lexeme.text)).2 := by
  obtain ⟨hpre, hhash, -⟩ := everywhere_append.1 hkeeps
  have hparens : openParens pre = 0 := by
    rcases hhash with hfits | ⟨-, -, hparens⟩
    · exact absurd hline (hfits.2.2.2 rfl)
    · exact hparens
  -- in front of the first such `#` nothing is read in another way
  have hfits : Everywhere Fits [] ('#' :: post.flatMap Lexeme.text) pre := by
    rw [everywhere_iff] at hpre ⊢
    intro front l back hback
    have hl := (hpre front l back hback).resolve_right fun hl => by
      obtain ⟨rfl, hopens, -⟩ := hl
      exact hfirst front back hback hopens
    simpa [Lexeme.text] using hl
  have htext := text_readDirective '#' (post.flatMap Lexeme.text)
  have hdirective := fits_readDirective hline (post.flatMap Lexeme.text)
  have htrivia : (readDirective '#' (post.flatMap Lexeme.text)).1.isTrivia := rfl
  have hkeyword : (readDirective '#' (post.flatMap Lexeme.text)).1.keyword? = none := rfl
  generalize readDirective '#' (post.flatMap Lexeme.text) = next at *
  obtain ⟨l, rest⟩ := next
  have hwhole : Everywhere Fits [] rest (pre ++ [l]) := by
    refine everywhere_append.2 ⟨hfits.congr_tail ?_, hdirective, trivial⟩
    rw [List.flatMap_singleton, htext]
  have hopens : OpensLine (pre ++ [l]) := opensLine_concat.2 (.inr ⟨htrivia, hline⟩)
  have hclosed : openParens (pre ++ [l]) = 0 := by
    rw [openParens_concat, Lexeme.depthBehind_of_isTrivia htrivia, hparens]
  have hkeywords : ∀ m ∈ pre ++ [l], m.keyword? = none :=
    List.forall_mem_append.2 ⟨hnone, List.forall_mem_singleton.2 hkeyword⟩
  rw [← declaresNothing_append_iff hwhole hkeywords hopens hclosed, List.flatMap_append,
    List.flatMap_append, List.flatMap_singleton, List.append_assoc, htext]
  rfl

/-- Where a declaration begins, one is declared. -/
theorem not_beginsCut_of_keyword?_eq_none {ls : List Lexeme} (h : ∀ l ∈ ls, l.keyword? = none) :
    ¬ beginsCut ls := by
  induction ls with
  | nil => exact Bool.false_ne_true
  | cons l ls ih =>
    obtain ⟨hl, hls⟩ := List.forall_mem_cons.1 h
    cases l with
    | declaration keyword body semicolons => contradiction
    | blank c =>
      rw [beginsCut, Bool.and_eq_true]
      exact fun hcut => ih hls hcut.2
    | _ => exact Bool.false_ne_true

/-- Nothing is cut out where nothing is declared. -/
theorem residueFrom_of_keyword?_eq_none {ls : List Lexeme} (h : ∀ l ∈ ls, l.keyword? = none)
    (marked : Bool) : residueFrom marked ls = ls := by
  induction ls with
  | nil => rfl
  | cons l ls ih =>
    rw [residueFrom_of_not_beginsCut (not_beginsCut_of_keyword?_eq_none h),
      ih (List.forall_mem_cons.1 h).2]

/-! ## A `#version` line that goes on -/

/-- A lexeme that breaks a line holds a newline. -/
theorem Lexeme.newline_mem_of_breaksLine {l : Lexeme} (h : l.breaksLine) : '\n' ∈ l.text := by
  cases l with
  | newline => exact List.mem_singleton_self _
  | blockComment text => exact of_decide_eq_true h
  | _ => contradiction

/-- Between a significant lexeme and the beginning of a line there is a line break. -/
theorem OpensLine.exists_breaksLine {before mid : List Lexeme} {l : Lexeme}
    (h : OpensLine (before ++ l :: mid)) (hl : ¬ l.isTrivia) : ∃ m ∈ mid, m.breaksLine := by
  induction mid using List.reverseRecOn with
  | nil =>
    rw [opensLine_concat] at h
    rcases h with hbreak | ⟨htrivia, -⟩
    · cases l with
      | newline | blockComment _ => exact absurd rfl hl
      | _ => contradiction
    · exact absurd htrivia hl
  | append_singleton mid m ih =>
    rw [← List.cons_append, ← List.append_assoc, opensLine_concat] at h
    rcases h with hbreak | ⟨-, hline⟩
    · exact ⟨m, List.mem_append_right _ (List.mem_singleton_self m), hbreak⟩
    · obtain ⟨k, hk, hbreak⟩ := ih hline
      exact ⟨k, List.mem_append_left _ hk, hbreak⟩

/-- Without an opening parenthesis none is open. -/
theorem openParens_eq_zero {before : List Lexeme} (h : .openParen ∉ before) :
    openParens before = 0 := by
  induction before using List.reverseRecOn with
  | nil => rfl
  | append_singleton before l ih =>
    rw [List.mem_append, not_or, List.mem_singleton] at h
    rw [openParens_concat, ih h.1]
    cases l with
    | openParen => exact absurd rfl h.2
    | _ => rfl

/-- Where a line begins in front of the first newline of a directive, only blanks stand before, and
no parentheses are open. -/
theorem openParens_eq_zero_of_blanks {before : List Lexeme} {xs blanks directive : List Char}
    (hopens : OpensLine before) (htext : before.flatMap Lexeme.text ++ xs = blanks ++ directive)
    (hblanks : ∀ c ∈ blanks, isBlank c) (hdirective : '\n' ∉ directive) :
    openParens before = 0 := by
  refine openParens_eq_zero fun hmem => ?_
  obtain ⟨front, back, rfl⟩ := List.append_of_mem hmem
  -- the parenthesis is no blank, so all that follows it is in the directive
  have hwhole : front.flatMap Lexeme.text ++ '(' :: (back.flatMap Lexeme.text ++ xs) =
      blanks ++ directive := by
    simpa [Lexeme.text] using htext
  have hback : '\n' ∉ back.flatMap Lexeme.text := by
    rcases List.append_eq_append_iff.1 hwhole with ⟨as, rfl, has⟩ | ⟨bs, -, rfl⟩
    · cases as with
      | nil =>
        rw [List.nil_append] at has
        rw [← has] at hdirective
        exact fun hmem => hdirective (by simp [hmem])
      | cons a as =>
        obtain ⟨rfl, -⟩ := List.cons.inj has
        exact absurd (hblanks '(' (by simp)) (by decide)
    · exact fun hmem => hdirective (by simp [hmem])
  obtain ⟨m, hm, hbreak⟩ := hopens.exists_breaksLine Bool.false_ne_true
  exact hback (List.mem_flatMap.2 ⟨m, hm, Lexeme.newline_mem_of_breaksLine hbreak⟩)

/-- Behind a `#version` line that ends inside of a directive, a text declares what follows it. -/
theorem declaresNothing_version_iff {cs line rest xs ys : List Char} {before behind : List Lexeme}
    (hnothing : DeclaresNothing cs) (hversion : splitVersionLine? cs = some (line, rest))
    (hsplit : lexemes .start cs = before ++ .directive (xs ++ '\n' :: ys) :: behind)
    (hline : before.flatMap Lexeme.text ++ xs = line) :
    DeclaresNothing (line ++ ('\n' :: placeholderText ++ rest)) ↔ DeclaresNothing rest := by
  obtain ⟨blanks, directive, hline', hblanks, -, hnewline, -⟩ := splitVersionLine?_eq_some hversion
  have hfits := everywhere_fits_start cs
  rw [DeclaresNothing, hsplit] at hnothing
  rw [hsplit] at hfits
  obtain ⟨hbefore, hdirective, -⟩ := everywhere_append.1 hfits
  obtain ⟨hopens, hhash, hcontinued, hlast⟩ := hdirective.directive_front
  have hnone : ∀ l ∈ before, l.keyword? = none := (List.forall_mem_append.1 hnothing).1
  have hparens := openParens_eq_zero_of_blanks hopens (hline.trans hline') hblanks hnewline
  have hfitsxs : Everywhere Fits [] xs before := hbefore.congr_tail (by simp [Lexeme.text, hhash])
  rw [← hline]
  exact declaresNothing_continuedDirective hfitsxs hnone hopens hparens hhash hcontinued hlast rest

/-! ## Stripped sources -/

/-- The text of a source that is stripped although it has no declarations. -/
theorem Stripped.toList_text_ofBare (cs : List Char) :
    (ofBare cs).text.toList = match splitVersionLine? cs with
      | some (line, rest) => line ++ ('\n' :: placeholderText ++ rest)
      | none => placeholderText ++ cs := by
  rw [text, toList_inject, ofBare]
  cases splitVersionLine? cs with
  | none => simp [placeholderText]
  | some parts => simp [placeholderText]

/-- A source that declares nothing declares nothing with the placeholder, unless text resurfaces. -/
theorem declaresNothing_ofBare_iff {source : String} (h : DeclaresNothing source.toList) :
    DeclaresNothing (Stripped.ofBare source.toList).text.toList ↔
      ∀ rest, Resurfaces source rest → DeclaresNothing rest := by
  have hfits := everywhere_fits_start source.toList
  have htext := flatMap_text_lexemes .start source.toList
  rw [Stripped.toList_text_ofBare]
  constructor
  · intro hstripped rest hrest
    cases hrest with
    | hash hleft hline hfirst =>
      rw [residueFrom_of_keyword?_eq_none h] at hleft
      have hhash := everywhere_iff.1 hfits _ _ _ hleft
      exact absurd hline (hhash.2.2.2 rfl)
    | version hnothing hversion hsplit hline =>
      rw [hversion] at hstripped
      exact (declaresNothing_version_iff h hversion hsplit hline).1 hstripped
    | @keyword before keyword _ hversion hsplit hparens hstatement =>
      rw [hsplit] at hfits htext
      have hbefore := (everywhere_append.1 hfits).1
      obtain ⟨c, cs, hword, -⟩ := keyword.exists_toList_eq
      have hfront : Everywhere Fits [] (keyword.word.toList ++ '\n' :: placeholderText)
          before := hbefore.congr_tail (by simp [Lexeme.text, hword])
      have hkeyword := not_declaresNothing_keyword hfront hparens hstatement
      rw [hversion, ← htext] at hstripped
      exact absurd (by simpa [Lexeme.text] using hstripped) hkeyword
  · intro hrest
    cases hversion : splitVersionLine? source.toList with
    | none => exact h.placeholder_front
    | some parts =>
      obtain ⟨line, rest⟩ := parts
      obtain ⟨blanks, directive, hline, -, hne, -, hcs⟩ := splitVersionLine?_eq_some hversion
      show DeclaresNothing (line ++ ('\n' :: placeholderText ++ rest))
      rcases hcs with hcs | ⟨hcs, rfl⟩
      · -- a newline ends the line, and the placeholder stands behind it
        rw [hcs] at h
        obtain hnothing | ⟨before, xs, ys, behind, hsplit, hxs⟩ := h.placeholder_behind
        · exact hnothing
        · rw [← hcs] at hsplit h
          have hnothing := hrest rest (.version h hversion hsplit hxs)
          exact (declaresNothing_version_iff h hversion hsplit hxs).2 hnothing
      · -- the source ends with the line, and a newline is added
        subst hcs
        have hsource : source.toList ≠ [] := by
          rw [hline]
          exact List.append_ne_nil_of_right_ne_nil _ hne
        obtain hnothing | ⟨before, keyword, hsplit, hparens, hstatement⟩ :=
          h.placeholder_end hsource
        · rwa [List.append_nil]
        · have hnothing := hrest _ (.keyword h hversion hsplit hparens hstatement)
          exact absurd hnothing
            (@not_declaresNothing_keyword [] keyword [] trivial rfl opensStatement_nil)

/-- A source is stripped if all of its declarations have an end. -/
theorem Stripped.ofSource_eq_ok {stage : Stage} {source : String} {stripped : Stripped}
    (h : ofSource stage source = .ok stripped) :
    Terminated (lexemes .start source.toList) ∧
      ofOutline (Outline.ofLexemes (lexemes .start source.toList)) = stripped := by
  rw [ofSource] at h
  split at h
  · contradiction
  obtain ⟨outline, houtline, rfl⟩ := Outcome.map_eq_ok_iff.1 h
  have hsplit : IsSplit source.toList (lexemes .start source.toList) := isSplit_lexemes _
  constructor
  · obtain hends | ⟨before, keyword, body, hls⟩ := hsplit.terminated_or
    · exact hends
    · rw [hls] at hsplit
      have herror := Declaration.ofSource_of_unterminated stage hsplit
      rw [Declaration.ofSource, houtline] at herror
      contradiction
  · unfold Outline.ofSource at houtline
    dsimp only at houtline
    split at houtline
    · contradiction
    · rw [Except.ok.inj houtline]

/-- A source that is stripped of its declarations declares nothing, unless text resurfaces. -/
theorem declaresNothing_ofOutline_iff {source : String}
    (hends : Terminated (lexemes .start source.toList))
    (h : ¬ DeclaresNothing source.toList) :
    DeclaresNothing
        (Stripped.ofOutline (Outline.ofLexemes (lexemes .start source.toList))).text.toList ↔
      ∀ rest, Resurfaces source rest → DeclaresNothing rest := by
  have hfits := everywhere_fits_start source.toList
  have hcuts : (Outline.ofLexemes (lexemes .start source.toList)).cuts ≠ [] := by
    rwa [Ne, Outline.cuts_eq_nil_iff hends]
  rw [Stripped.toList_text_ofOutline hcuts, ← flatMap_text_residueFrom hfits.text_ne_nil]
  have hkeeps := everywhere_keeps_residueFrom hfits hends (.refl []) false
  have hnone := keyword?_of_mem_residueFrom hends false
  constructor
  · intro hstripped rest hrest
    cases hrest with
    | hash hleft hline hfirst =>
      rw [hleft] at hkeeps hstripped hnone
      have hpre := (List.forall_mem_append.1 hnone).1
      exact (declaresNothing_hash_iff hkeeps hpre hline hfirst).1 hstripped
    | version hnothing hversion hsplit hline => exact absurd hnothing h
    | keyword hnothing hversion hsplit hparens hstatement => exact absurd hnothing h
  · intro hrest
    rcases hkeeps.fits_or_first_hash with hleftfits | ⟨pre, post, hleft, hline, hfirst⟩
    · exact hleftfits.declaresNothing hnone
    · have hnothing := hrest _ (.hash hleft hline hfirst)
      rw [hleft] at hkeeps hnone ⊢
      have hpre := (List.forall_mem_append.1 hnone).1
      exact (declaresNothing_hash_iff hkeeps hpre hline hfirst).2 hnothing

/-- A stripped source has no declarations exactly if no text that resurfaces has any. -/
theorem Stripped.ofSource_text_eq_nil_iff {stage : Stage} {source : String} {stripped : Stripped}
    (h : ofSource stage source = .ok stripped) :
    Declaration.ofSource stage stripped.text = .ok [] ↔
      ∀ rest, Resurfaces source rest →
        Declaration.ofSource stage (String.ofList rest) = .ok [] := by
  obtain ⟨hends, rfl⟩ := ofSource_eq_ok h
  simp only [Declaration.ofSource_eq_ok_nil_iff, String.toList_ofList]
  by_cases hnothing : DeclaresNothing source.toList
  · have hcuts := (Outline.cuts_eq_nil_iff hends).2 hnothing
    have hlead : (Outline.ofLexemes (lexemes .start source.toList)).lead = source.toList := by
      have htext := Outline.text_ofLexemes (lexemes .start source.toList)
      rw [Outline.text, hcuts, flatMap_text_lexemes] at htext
      exact (List.append_nil _).symm.trans htext
    rw [ofOutline, hcuts, hlead]
    exact declaresNothing_ofBare_iff hnothing
  · exact declaresNothing_ofOutline_iff hends hnothing

/-- A source whose second declaration is inside a comment, which begins in a line that is no
directive only because of the first. -/
def hiddenSource : String :=
  "uniform float a;#define x /*\nuniform float b; */"

/-- That source without its first declaration. -/
def hiddenStripped : Stripped where
  head := ""
  tail := "\n#define x /*\nuniform float b; */"
  declarations := [(.uniform, "float a")]

/-- Only the first declaration is cut out. -/
theorem Stripped.ofSource_hiddenSource : ofSource .vertex hiddenSource = .ok hiddenStripped := by
  decide +kernel

/-- The second declaration comes to light when the first is cut out. -/
theorem Stripped.ofSource_text_hiddenSource :
    ofSource .vertex hiddenSource = .ok hiddenStripped ∧
      Declaration.ofSource .vertex hiddenStripped.text = .ok [⟨.uniform, "float b", 17, 33⟩] := by
  refine ⟨ofSource_hiddenSource, ?_⟩
  decide +kernel

/-- What is left of the comment resurfaces, and has a declaration. -/
theorem Stripped.ofSource_text_eq_nil_iff_hiddenSource :
    ofSource .vertex hiddenSource = .ok hiddenStripped ∧
      (Declaration.ofSource .vertex hiddenStripped.text = .ok [] ↔
        ∀ rest, Resurfaces hiddenSource rest →
          Declaration.ofSource .vertex (String.ofList rest) = .ok []) :=
  ⟨ofSource_hiddenSource, ofSource_text_eq_nil_iff ofSource_hiddenSource⟩

end ShaderInterface.Source
