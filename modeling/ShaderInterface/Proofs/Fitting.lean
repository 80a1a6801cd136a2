import ShaderInterface.Proofs.Grammar
import ShaderInterface.Proofs.Spans

/-!
# Lexemes that are read fit

Every lexeme that is read behind other lexemes fits where it stands (`fits_read`). There is a lemma
for each kind of lexeme that is longer than a character.
-/

namespace ShaderInterface.Source

open Text

/-! ## Declarations and words -/

/-- A word begins the declaration of its keyword where the grammar has one. -/
theorem Context.declares?_behind {before : List Lexeme} {w rest : List Char} {keyword : Keyword} :
    (behind before).declares? w rest = some keyword ↔
      keyword.word.toList = w ∧ BeginsDeclaration before rest := by
  have hgap : rest.head?.any isKeywordGap ↔
      ∃ c ∈ rest.head?, c ∈ ['\t', '\n', '\x0c', '\r', ' '] := by
    cases rest with
    | nil => simp
    | cons c rest => simp [isKeywordGap]; grind
  have hword : Keyword.ofWord? (String.ofList w) = some keyword ↔ keyword.word.toList = w := by
    rw [Keyword.ofWord?_eq_some_iff]
    constructor
    · intro h
      rw [h, String.toList_ofList]
    · intro h
      rw [← h, String.ofList_toList]
  rw [BeginsDeclaration, ← atBoundary_behind, ← hgap, declares?]
  split
  · next h =>
    rw [Bool.and_eq_true] at h
    rw [hword, h.1, h.2]
    simp
  · next h =>
    rw [Bool.and_eq_true] at h
    constructor
    · nofun
    · rintro ⟨-, hgap, hboundary⟩
      exact absurd ⟨hboundary, hgap⟩ h

/-- Whether a keyword begins a declaration shows in the first character behind it. -/
theorem beginsDeclaration_congr {before : List Lexeme} {rest rest' : List Char}
    (h : rest.head? = rest'.head?) :
    BeginsDeclaration before rest ↔ BeginsDeclaration before rest' := by
  rw [BeginsDeclaration, BeginsDeclaration, h]

/-- Where a declaration begins, no semicolon follows at once. -/
theorem BeginsDeclaration.head?_ne {before : List Lexeme} {rest : List Char}
    (h : BeginsDeclaration before rest) : rest.head? ≠ some ';' := by
  obtain ⟨⟨c, hc, hgap⟩, -⟩ := h
  intro hsemicolon
  obtain rfl : c = ';' := Option.some.inj ((Option.mem_def.1 hc).symm.trans hsemicolon)
  exact absurd hgap (by decide)

/-- A declaration that is read fits. -/
theorem fits_readDeclaration {before : List Lexeme} {keyword : Keyword} {rest : List Char}
    (h : BeginsDeclaration before rest) :
    Fits before (readDeclaration keyword rest).2 (readDeclaration keyword rest).1 := by
  unfold readDeclaration
  dsimp only
  split
  · next hclosing =>
    rw [List.isEmpty_iff, List.dropWhile_eq_nil_iff] at hclosing
    exact ⟨h, fun hmem => absurd (hclosing ';' hmem) (by decide), rfl⟩
  · next hclosing =>
    have hbody : ∀ c ∈ rest.takeWhile (· != ';'), (c != ';') = true :=
      List.all_eq_true.1 List.all_takeWhile
    refine ⟨(beginsDeclaration_congr ?_).1 h, fun hmem => absurd (hbody ';' hmem) (by decide),
      ?_, ?_, ?_⟩
    · -- the body begins as what follows the keyword
      cases rest with
      | nil => rfl
      | cons c rest =>
        have hc : c ≠ ';' := fun hc => h.head?_ne (by rw [hc]; rfl)
        rw [List.takeWhile_cons_of_pos (by simpa using hc)]
        rfl
    · cases hdrop : rest.dropWhile (· != ';') with
      | nil => exact absurd (List.isEmpty_iff.2 hdrop) hclosing
      | cons c closing =>
        have hhead : c ∈ (rest.dropWhile (· != ';')).head? := by
          rw [hdrop]
          rfl
        have hc := not_of_mem_head?_dropWhile hhead
        rw [List.takeWhile_cons_of_pos (by simpa using hc)]
        exact List.cons_ne_nil _ _
    · intro c hc
      exact eq_of_beq (List.all_eq_true.1 List.all_takeWhile c hc)
    · intro c hc
      simpa using not_of_mem_head?_dropWhile hc

/-- A word that is read fits. -/
theorem fits_readWord {before : List Lexeme} {c : Char} {cs : List Char} (hc : isNameStart c) :
    Fits before (readWord (.behind before) c cs).2 (readWord (.behind before) c cs).1 := by
  unfold readWord
  dsimp only
  split
  · next keyword h => exact fits_readDeclaration (Context.declares?_behind.1 h).2
  · next h =>
    refine ⟨⟨⟨c, cs.takeWhile isNamePart, rfl, hc, fun d hd => ?_⟩, fun d hd => ?_⟩, ?_⟩
    · exact List.all_eq_true.1 List.all_takeWhile d hd
    · exact not_of_mem_head?_dropWhile hd
    · rintro ⟨⟨keyword, hkeyword⟩, hbegins⟩
      have hsome := Context.declares?_behind.2 ⟨hkeyword, hbegins⟩
      rw [h] at hsome
      contradiction

/-! ## Comments -/

/-- Neighbours inside a comment are related. -/
theorem isChain_insideComment_iff {cs : List Char} :
    cs.IsChain (insideComment · ·) ↔ ¬ ['*', '/'] <:+: cs := by
  rw [List.isChain_iff_forall_rel_of_append_cons_cons]
  constructor
  · rintro h ⟨front, back, rfl⟩
    have hrel := @h '*' '/' front back (by simp)
    exact absurd hrel (by decide)
  · intro h b c front back hcs
    rw [insideComment, Bool.not_eq_true', Bool.and_eq_false_iff]
    by_contra hcon
    simp at hcon
    obtain ⟨rfl, rfl⟩ := hcon
    exact h ⟨front, back, by simp [hcs]⟩

/-- A block comment that is read fits. -/
theorem fits_readBlockComment (before : List Lexeme) (cs : List Char) :
    Fits before (readBlockComment cs).2 (readBlockComment cs).1 := by
  have hchain := isChain_spanNeighbours insideComment ' ' cs
  have hmeet := not_rel_spanNeighbours insideComment ' ' cs
  unfold readBlockComment
  generalize spanNeighbours insideComment ' ' cs = parts at hchain hmeet
  obtain ⟨body, rest⟩ := parts
  have hinside := isChain_insideComment_iff.1 hchain.tail
  cases rest with
  | nil => exact .inr ⟨body, by rw [List.take_nil, List.append_nil], hinside, rfl⟩
  | cons c rest =>
    -- the two characters that end the comment stand at the end of `body` and behind it
    rcases List.eq_nil_or_concat' body with rfl | ⟨inner, b, rfl⟩
    · have hspace := hmeet c rfl ' ' rfl
      simp [insideComment] at hspace
    · have hlast : b ∈ (' ' :: (inner ++ [b])).getLast? := by
        rw [← List.cons_append]
        exact List.getLast?_concat
      have hends := hmeet c rfl b hlast
      simp [insideComment] at hends
      obtain ⟨rfl, rfl⟩ := hends
      exact .inl ⟨inner, by simp, hinside⟩

/-! ## Directives -/

/-- Neighbours inside a directive are related. -/
theorem isChain_insideDirective_iff {c : Char} {cs : List Char} (hc : c ≠ '\n') :
    (c :: cs).IsChain (insideDirective · ·) ↔
      ∀ front back, c :: cs = front ++ '\n' :: back → front.getLast? = some '\\' := by
  rw [List.isChain_iff_forall_rel_of_append_cons_cons]
  constructor
  · intro h front back hcs
    rcases List.eq_nil_or_concat' front with rfl | ⟨front, b, rfl⟩
    · exact absurd (List.cons.inj hcs).1 hc
    · have hrel := @h b '\n' front back (by simpa using hcs)
      rw [List.getLast?_concat]
      simpa [insideDirective] using hrel
  · intro h b d front back hcs
    by_cases hd : d = '\n'
    · subst hd
      have hlast := h (front ++ [b]) back (by simpa using hcs)
      rw [List.getLast?_concat] at hlast
      simpa [insideDirective] using hlast
    · simp [insideDirective, hd]

/-- A directive that is read fits. -/
theorem fits_readDirective {before : List Lexeme} (h : OpensLine before) (cs : List Char) :
    Fits before (readDirective '#' cs).2 (readDirective '#' cs).1 := by
  have hchain := isChain_spanNeighbours insideDirective '#' cs
  have hmeet := not_rel_spanNeighbours insideDirective '#' cs
  rw [isChain_insideDirective_iff (by decide)] at hchain
  refine ⟨h, rfl, hchain, fun c hc => ⟨?_, fun hlast => ?_⟩⟩
  · obtain ⟨b, hlast⟩ : ∃ b, b ∈ ('#' :: (spanNeighbours insideDirective '#' cs).1).getLast? :=
      ⟨_, List.getLast?_eq_some_getLast (List.cons_ne_nil _ _)⟩
    have hends := hmeet c hc b hlast
    simp [insideDirective] at hends
    exact hends.1
  · have hends := hmeet c hc '\\' hlast
    simp [insideDirective] at hends

/-! ## All lexemes -/

/-- A line comment that is read fits. -/
theorem fits_lineComment (before : List Lexeme) (cs : List Char) :
    Fits before (cs.dropWhile (· != '\n'))
      (.lineComment ('/' :: '/' :: cs.takeWhile (· != '\n'))) := by
  refine ⟨cs.takeWhile (· != '\n'), rfl, fun hmem => ?_, fun c hc => ?_⟩
  · exact absurd (List.all_eq_true.1 List.all_takeWhile '\n' hmem) (by decide)
  · simpa using not_of_mem_head?_dropWhile hc

/-- A character that begins nothing longer fits by itself. -/
theorem fits_single {before : List Lexeme} {c : Char} {cs : List Char} (hname : ¬ isNameStart c)
    (hcomment : c = '/' → ∀ d ∈ cs.head?, d ≠ '/' ∧ d ≠ '*')
    (hdirective : c = '#' → ¬ OpensLine before) : Fits before cs (single c) := by
  unfold single
  split
  · trivial
  split
  · next hblank => simpa [Fits, isLineBlank, or_assoc] using hblank
  split
  · next hterminator => simpa [Fits, isTerminator, or_assoc] using hterminator
  split
  · trivial
  split
  · trivial
  · next hnewline hblank hterminator hopen hclose =>
    refine ⟨?_, hname, hcomment, hdirective⟩
    simp [isLineBlank, isTerminator] at hnewline hblank hterminator hopen hclose ⊢
    simp [hnewline, hblank, hterminator, hopen, hclose]

/-- Every lexeme that is read fits where it stands. -/
theorem fits_read (before : List Lexeme) (c : Char) (cs : List Char) :
    Fits before (read (.behind before) c cs).2 (read (.behind before) c cs).1 := by
  unfold read
  split
  · next h =>
    simp only [Bool.and_eq_true, beq_iff_eq] at h
    obtain ⟨rfl, hhead⟩ := h
    obtain ⟨ds, rfl⟩ := List.head?_eq_some_iff.1 hhead
    exact fits_lineComment before ds
  split
  · exact fits_readBlockComment before cs.tail
  split
  · next h =>
    rw [Bool.and_eq_true, beq_iff_eq, Context.lineStart_behind] at h
    obtain ⟨rfl, hline⟩ := h
    exact fits_readDirective hline cs
  split
  · next hname => exact fits_readWord hname
  · next hline hblock hdirective hname =>
    refine fits_single hname ?_ ?_
    · rintro rfl d hd
      rw [Option.mem_def] at hd
      simp [hd] at hline hblock
      exact ⟨hline, hblock⟩
    · rintro rfl
      simpa [Context.lineStart_behind] using hdirective

end ShaderInterface.Source
