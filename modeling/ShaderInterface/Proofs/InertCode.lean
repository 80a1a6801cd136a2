import ShaderInterface.Proofs.AppendedText
import ShaderInterface.Proofs.MachineWords
import ShaderInterface.Proofs.OuterGroups
import ShaderInterface.Proofs.Slots

/-!
# Generated code is inert

The code that declares the resources of a group holds the word `uniform` and names that may be
keywords, but the scanner passes over it. `Context.Passes` says of a text that it is read without a
declaration, whatever follows, and which context it leads to. The pieces of the code pass from one
context to the next, and back to the context in which a source begins (`ResourceGroup.passes_code`).
So what stands behind the code declares what it does as a source of its own, further on in bytes and
lines (`Linker.inert_code`).
-/

namespace ShaderInterface

namespace Source

open Outcome (bimap)
open Text

/-! ## Texts that are passed over -/

/-- The text declares nothing where the context is `ctx`, and leads to the context `ctx'`, whatever
follows it. -/
def Context.Passes (ctx : Context) (cs : List Char) (ctx' : Context) : Prop :=
  ∀ rest, ∃ ls, ls.flatMap Lexeme.text = cs ∧ (∀ l ∈ ls, l.keyword? = none) ∧
    lexemes ctx (cs ++ rest) = ls ++ lexemes ctx' rest

/-- In the middle of a statement, with some parentheses open. -/
def Context.inside (depth : Nat) : Context :=
  ⟨false, false, depth⟩

/-- A character that ends no statement, opens and closes nothing, and begins no comment. Letters,
digits and underscores are such characters, also those that are not ASCII. -/
def isPlain (c : Char) : Bool :=
  c ∉ ['\n', ';', '{', '}', '(', ')', '/']

/-- What continues an identifier is plain. -/
theorem isPlain_of_isNamePart {c : Char} (h : isNamePart c) : isPlain c := by
  simp only [isPlain, List.mem_cons, List.not_mem_nil, or_false, decide_eq_true_eq]
  rintro (rfl | rfl | rfl | rfl | rfl | rfl | rfl) <;> exact absurd h (by decide)

/-- An identifier is plain. -/
theorem all_isPlain_of_isIdentifier {s : String} (h : isIdentifier s) : s.toList.all isPlain :=
  List.all_eq_true.2 fun c hc =>
    isPlain_of_isNamePart (List.all_eq_true.1 (all_isNamePart_of_isIdentifier h) c hc)

/-- A number is plain. -/
theorem all_isPlain_toString (n : Nat) : (toString n).toList.all isPlain :=
  List.all_eq_true.2 fun _ hc =>
    isPlain_of_isNamePart (isNamePart_of_isDigit (isDigit_of_mem_toString hc))

namespace Context.Passes

variable {ctx ctx' ctx'' : Context}

/-- No text changes nothing. -/
theorem nil (ctx : Context) : ctx.Passes [] ctx :=
  fun _ => ⟨[], rfl, List.forall_mem_nil _, rfl⟩

/-- Texts are passed over one after the other. -/
theorem append {cs ds : List Char} (h : ctx.Passes cs ctx') (h' : ctx'.Passes ds ctx'') :
    ctx.Passes (cs ++ ds) ctx'' := by
  intro rest
  obtain ⟨ls, htext, hnone, hread⟩ := h (ds ++ rest)
  obtain ⟨ms, htext', hnone', hread'⟩ := h' rest
  refine ⟨ls ++ ms, ?_, List.forall_mem_append.2 ⟨hnone, hnone'⟩, ?_⟩
  · rw [List.flatMap_append, htext, htext']
  · rw [List.append_assoc, hread, hread', List.append_assoc]

/-- Texts that lead back to where they begin are passed over one after the other. -/
theorem flatMap {α : Type} {xs : List α} {text : α → List Char}
    (h : ∀ x ∈ xs, ctx.Passes (text x) ctx) : ctx.Passes (xs.flatMap text) ctx := by
  induction xs with
  | nil => exact nil ctx
  | cons x xs ih =>
    rw [List.forall_mem_cons] at h
    rw [List.flatMap_cons]
    exact h.1.append (ih h.2)

/-- A character that begins nothing longer is passed over. -/
theorem single {c : Char} (hname : ¬ isNameStart c) (hslash : c ≠ '/')
    (hdirective : c = '#' → ¬ ctx.lineStart) : ctx.Passes [c] (ctx.after (Source.single c)) := by
  intro rest
  have hread : read ctx c rest = (Source.single c, rest) :=
    read_single hname (fun h => absurd h hslash) hdirective
  refine ⟨[Source.single c], ?_, List.forall_mem_singleton.2 (keyword?_single c), ?_⟩
  · rw [List.flatMap_singleton, text_single]
  · rw [List.singleton_append, lexemes_cons, hread]
    rfl

/-- A word that declares nothing is passed over, with the text behind it. -/
theorem word {w ds : List Char} (hword : IsWord w ds) (hne : ds ≠ [])
    (hnone : ctx.declares? w ds = none) (h : (inside ctx.parenDepth).Passes ds ctx') :
    ctx.Passes (w ++ ds) ctx' := by
  obtain ⟨⟨c, cs, rfl, hc, hcs⟩, hend⟩ := hword
  intro rest
  obtain ⟨ls, htext, hkeywords, hread⟩ := h rest
  have hhead : (ds ++ rest).head? = ds.head? := List.head?_append_of_ne_nil ds hne
  have hword : read ctx c (cs ++ (ds ++ rest)) = (.word (c :: cs), ds ++ rest) := by
    have hdeclares : ctx.declares? (c :: cs) (ds ++ rest) = none := by
      rwa [declares?, hhead]
    rw [read_name ctx hc, readWord_append hcs (hhead ▸ hend), hdeclares]
  refine ⟨.word (c :: cs) :: ls, ?_, List.forall_mem_cons.2 ⟨rfl, hkeywords⟩, ?_⟩
  · rw [List.flatMap_cons, htext]
    rfl
  · rw [List.append_assoc, List.cons_append, lexemes_cons, hword]
    exact congrArg (Lexeme.word (c :: cs) :: ·) hread

/-- In the middle of a statement a plain character changes nothing. -/
theorem after_single_of_isPlain {c : Char} (h : isPlain c) (depth : Nat) :
    (inside depth).after (Source.single c) = inside depth := by
  have hplain : c ∉ ['\n', ';', '{', '}', '(', ')', '/'] := of_decide_eq_true h
  simp only [List.mem_cons, List.not_mem_nil, or_false, not_or] at hplain
  unfold Source.single
  simp only [isTerminator, hplain, Bool.or_self, beq_false_of_ne, ne_eq, not_false_eq_true,
    if_false, Bool.false_eq_true]
  split <;> rfl

/-- In the middle of a statement plain text is passed over, up to a character that is not. -/
theorem plain {depth : Nat} {cs : List Char} {d : Char} (hcs : cs.all isPlain)
    (hd : d ∈ ['\n', ';', '{', '}', '(', ')']) :
    (inside depth).Passes (cs ++ [d]) ((inside depth).after (Source.single d)) := by
  have hstop : ¬ isNamePart d ∧ d ≠ '/' ∧ d ≠ '#' := by
    simp only [List.mem_cons, List.not_mem_nil, or_false] at hd
    rcases hd with rfl | rfl | rfl | rfl | rfl | rfl <;> decide
  -- by induction on the length, since a word takes more than one character at once
  induction hn : cs.length using Nat.strongRecOn generalizing cs with
  | ind n ih =>
    cases cs with
    | nil =>
      exact single (fun h => hstop.1 (isNamePart_of_isNameStart h)) hstop.2.1
        fun h => absurd h hstop.2.2
    | cons c cs =>
      rw [List.all_cons, Bool.and_eq_true] at hcs
      have hshorter : ∀ ds : List Char, ds <:+ cs → (inside depth).Passes (ds ++ [d])
          ((inside depth).after (Source.single d)) := by
        intro ds hds
        have hlength := hds.length_le
        rw [List.length_cons] at hn
        exact ih ds.length (by omega) (List.all_eq_true.2 fun b hb =>
          List.all_eq_true.1 hcs.2 b (hds.subset hb)) rfl
      by_cases hname : isNameStart c
      · have hword : IsWord (c :: cs.takeWhile isNamePart) (cs.dropWhile isNamePart ++ [d]) := by
          refine ⟨⟨c, _, rfl, hname, List.all_eq_true.1 List.all_takeWhile⟩, fun b hb => ?_⟩
          rw [List.head?_append, Option.mem_def, Option.or_eq_some_iff] at hb
          rcases hb with hb | ⟨-, hb⟩
          · exact not_of_mem_head?_dropWhile hb
          · obtain rfl := Option.some.inj hb
            exact hstop.1
        have hbehind := hshorter _ (List.dropWhile_suffix isNamePart)
        have hpasses := @word (inside depth) _ _ _ hword (by simp) rfl hbehind
        rwa [List.cons_append, ← List.append_assoc, List.takeWhile_append_dropWhile] at hpasses
      · have hslash : c ≠ '/' := by
          rintro rfl
          exact absurd hcs.1 (by decide)
        have hfirst := @single (inside depth) c hname hslash fun _ => Bool.false_ne_true
        rw [after_single_of_isPlain hcs.1] at hfirst
        exact hfirst.append (hshorter cs (List.suffix_refl cs))

/-- A newline behind the end of a statement leads to the beginning of a source. -/
theorem newline (lineStart : Bool) : Passes ⟨lineStart, true, 0⟩ ['\n'] start :=
  single (by decide) (by decide) (by simp)

/-- Plain text that ends a statement at the end of a line leads to the beginning of a source. -/
theorem line {cs : List Char} {d : Char} (hcs : cs.all isPlain) (hd : isTerminator d) :
    (inside 0).Passes (cs ++ [d] ++ ['\n']) start := by
  have hd : d ∈ [';', '{', '}'] := by
    simpa [isTerminator, or_assoc] using hd
  have hmem : d ∈ ['\n', ';', '{', '}', '(', ')'] := by
    simp only [List.mem_cons] at hd ⊢
    tauto
  have hafter : (inside 0).after (Source.single d) = ⟨false, true, 0⟩ := by
    simp only [List.mem_cons, List.not_mem_nil, or_false] at hd
    rcases hd with rfl | rfl | rfl <;> rfl
  have hplain := @plain 0 _ _ hcs hmem
  rw [hafter] at hplain
  exact hplain.append (newline false)

/-- A layout qualifier leads from the beginning of a source to the middle of a statement. -/
theorem layout {arguments : List Char} (h : arguments.all isPlain) :
    start.Passes ("layout(".toList ++ arguments ++ [')']) (inside 0) := by
  have hword : IsWord "layout".toList ['('] := by
    refine ⟨⟨'l', "ayout".toList, rfl, rfl, List.all_eq_true.1 rfl⟩, fun b hb => ?_⟩
    obtain rfl := Option.mem_some.1 hb
    decide
  have hopen : (inside 0).Passes ['('] (inside 1) := single (by decide) (by decide) (by simp)
  have hclose : (inside 1).Passes (arguments ++ [')']) (inside 0) := plain h (by simp)
  have hlayout := (@word start _ _ _ hword (by simp) rfl hopen).append hclose
  rwa [← List.append_assoc] at hlayout

/-- A line that begins with a word that is no keyword is passed over. -/
theorem member {w : String} {cs : List Char} (hw : isIdentifier w)
    (hkeyword : Keyword.ofWord? w = none) (hcs : cs.all isPlain) :
    start.Passes ("    ".toList ++ (w.toList ++ ' ' :: cs) ++ [';'] ++ ['\n']) start := by
  have hblank : start.Passes [' '] start := single (by decide) (by decide) (by simp)
  have hword : IsWord w.toList (' ' :: cs ++ [';'] ++ ['\n']) := by
    refine ⟨?_, fun b hb => ?_⟩
    · unfold isIdentifier at hw
      split at hw
      · contradiction
      · next c cs hcons =>
        rw [Bool.and_eq_true, List.all_eq_true] at hw
        exact ⟨c, cs, hcons, hw.1, hw.2⟩
    · obtain rfl := Option.mem_some.1 hb
      decide
  have hnone : start.declares? w.toList (' ' :: cs ++ [';'] ++ ['\n']) = none := by
    rw [declares?, String.ofList_toList, hkeyword]
    exact ite_self _
  have hrest : (inside 0).Passes (' ' :: cs ++ [';'] ++ ['\n']) start :=
    line (by rw [List.all_cons, hcs]; rfl) rfl
  have hline := (((hblank.append hblank).append hblank).append hblank).append
    (word hword (by simp) hnone hrest)
  simpa using hline

end Context.Passes

/-! ## Behind inert text -/

/-- The declaration as it stands behind so many more bytes. -/
def Declaration.shift (n : Nat) (d : Declaration) : Declaration :=
  { d with start := n + d.start, stop := n + d.stop }

/-- A declaration without an end is told as it stands behind so many more lines. -/
def shiftLines (n : Nat) : LinkError → LinkError
  | .unterminatedDeclaration stage keyword line =>
    .unterminatedDeclaration stage keyword (line + n)
  | cause => cause

/-- The text declares nothing and keeps nothing behind it from declaring what it declares by itself,
as many bytes and lines further on as the text has. -/
structure Inert (code : String) : Prop where
  /-- Alone the text has no declaration. -/
  alone : ∀ stage, Declaration.ofSource stage code = .ok []
  /-- Another text behind it has the declarations that it has alone, or it is refused alike. -/
  behind : ∀ stage text, Declaration.ofSource stage (code ++ text) =
    bimap (List.map (Declaration.shift code.utf8ByteSize)) (shiftLines (code.toList.count '\n'))
      (Declaration.ofSource stage text)

/-- Behind a text that does not end with an indent, declarations stand as many bytes further on as
the text has. -/
theorem declarationsFrom_behind {before : List Char}
    (h : ∀ c ∈ before.getLast?, ¬ Outline.isIndent c) (cs : List Char) (ls : List Lexeme) :
    declarationsFrom (before ++ cs) ls =
      (declarationsFrom cs ls).map (Declaration.shift (byteCount before)) := by
  induction ls generalizing cs with
  | nil => rfl
  | cons l ls ih =>
    by_cases hdeclaration : ∃ keyword body semicolons, l = .declaration keyword body semicolons
    · obtain ⟨keyword, body, semicolons, rfl⟩ := hdeclaration
      have hrest := ih (cs ++ keyword.word.toList ++ body ++ semicolons)
      simp only [← List.append_assoc] at hrest
      simp only [declarationsFrom, List.map_cons, Declaration.shift, hrest,
        rdropWhile_isIndent_append h, byteCount_append, Nat.add_assoc]
    · have hdeclaration := fun k b s h => hdeclaration ⟨k, b, s, h⟩
      rw [declarationsFrom_cons hdeclaration, declarationsFrom_cons hdeclaration, List.append_assoc,
        ih]

/-- Lexemes of which none begins with a keyword declare nothing. -/
theorem declarationsFrom_eq_nil {ls : List Lexeme} (h : ∀ l ∈ ls, l.keyword? = none)
    (before : List Char) : declarationsFrom before ls = [] := by
  induction ls generalizing before with
  | nil => rfl
  | cons l ls ih =>
    rw [List.forall_mem_cons] at h
    rw [declarationsFrom_cons fun k b s hl => ?_, ih h.2]
    subst hl
    exact absurd h.1 (Option.some_ne_none k)

/-- A text that is passed over, back to the context in which a source begins, is inert if its last
line is whole. -/
theorem Context.Passes.inert {code : String} (hpasses : start.Passes code.toList start)
    (hclosed : Block.Closed code) : Inert code := by
  have hbehind : ∀ stage text, Declaration.ofSource stage (code ++ text) =
      bimap (List.map (Declaration.shift code.utf8ByteSize)) (shiftLines (code.toList.count '\n'))
        (Declaration.ofSource stage text) := by
    intro stage text
    have hindent : ∀ c ∈ code.toList.getLast?, ¬ Outline.isIndent c := by
      intro c hc
      rcases hclosed with rfl | hnewline
      · contradiction
      · obtain rfl := Option.some.inj (hnewline.symm.trans hc)
        decide
    obtain ⟨ls, htext, hnone, hread⟩ := hpasses text.toList
    have hsplit : IsSplit (code ++ text).toList (ls ++ lexemes .start text.toList) := by
      rw [isSplit_iff, String.toList_append, hread]
    have halone : IsSplit text.toList (lexemes .start text.toList) := isSplit_iff.2 rfl
    rcases halone.terminated_or with hends | ⟨before, keyword, body, hbefore⟩
    · have hall : Terminated (ls ++ lexemes .start text.toList) := by
        intro keyword body hmem
        rcases List.mem_append.1 hmem with hmem | hmem
        · exact absurd (hnone _ hmem) (Option.some_ne_none keyword)
        · exact hends keyword body hmem
      have hshift := declarationsFrom_behind hindent [] (lexemes .start text.toList)
      rw [List.append_nil, byteCount_toList] at hshift
      rw [Declaration.ofSource_of_terminated stage hsplit hall,
        Declaration.ofSource_of_terminated stage halone hends, declarationsFrom_append,
        declarationsFrom_eq_nil hnone, htext, List.nil_append, List.nil_append, hshift]
      rfl
    · rw [hbefore] at halone
      rw [hbefore, ← List.append_assoc] at hsplit
      rw [Declaration.ofSource_of_unterminated stage hsplit,
        Declaration.ofSource_of_unterminated stage halone, List.flatMap_append, htext,
        List.count_append, Nat.add_left_comm, Nat.add_comm]
      rfl
  refine ⟨fun stage => ?_, hbehind⟩
  have hnothing : Declaration.ofSource stage "" = .ok [] :=
    Declaration.ofSource_of_terminated stage (isSplit_iff.2 (lexemes_nil .start).symm)
      fun keyword body => List.not_mem_nil
  have halone := hbehind stage ""
  rwa [String.append_empty, hnothing] at halone

end Source

open Source (Context Declaration Inert Keyword all_isPlain_of_isIdentifier all_isPlain_toString
  isPlain)

/-! ## Code of a group -/

/-- The line of a resource is passed over, whatever the resource is called. -/
theorem Texture.passes_resourceLine {typeName name : String} (htype : typeName.toList.all isPlain)
    (hname : name.toList.all isPlain) (group slot : Nat) :
    Context.start.Passes (resourceLine group slot typeName name).toList .start := by
  have harguments : ("set = ".toList ++ (toString group).toList ++ ", binding = ".toList ++
      (toString slot).toList).all isPlain := by
    simp only [List.all_append, all_isPlain_toString]
    rfl
  have hdeclared : (" uniform ".toList ++ typeName.toList ++ [' '] ++ name.toList).all isPlain := by
    simp only [List.all_append, htype, hname]
    rfl
  have hline := (Context.Passes.layout harguments).append
    (Context.Passes.line (d := ';') hdeclared rfl)
  have htext : (resourceLine group slot typeName name).toList =
      "layout(".toList ++ ("set = ".toList ++ (toString group).toList ++ ", binding = ".toList ++
        (toString slot).toList) ++ [')'] ++ (" uniform ".toList ++ typeName.toList ++ [' '] ++
          name.toList ++ [';'] ++ ['\n']) := by
    unfold resourceLine
    simp only [String.toList_append, List.append_assoc]
    rfl
  rwa [htext]

/-- The lines of a texture are passed over. -/
theorem Texture.passes_declaration {t : Texture} (hname : Text.isIdentifier t.name) (group : Nat) :
    Context.start.Passes (t.declaration group).toList .start := by
  have htexture : (t.sampleType.textureStem ++ t.dimension.typeName).toList.all isPlain := by
    cases t.sampleType <;> cases t.dimension <;> rfl
  have hsampler : t.sampleType.samplerType.toList.all isPlain := by
    cases t.sampleType <;> rfl
  have hsamplerName : t.samplerName.toList.all isPlain := by
    rw [samplerName, String.toList_append, List.all_append, all_isPlain_of_isIdentifier hname]
    rfl
  unfold declaration
  rw [String.toList_append]
  exact (passes_resourceLine htexture (all_isPlain_of_isIdentifier hname) _ _).append
    (passes_resourceLine hsampler hsamplerName _ _)

/-- A type of the standard tables is an identifier and no keyword. -/
theorem HostTables.typeName_of_standard {typeName : String} {count : Nat}
    (h : standard.elementCount? typeName = some count) :
    Text.isIdentifier typeName ∧ Keyword.ofWord? typeName = none := by
  have hall : ∀ entry ∈ standard.elementCounts,
      Text.isIdentifier entry.1 ∧ Keyword.ofWord? entry.1 = none := by
    decide
  exact hall _ (mem_of_elementCount?_eq_some h)

/-- The line of a field is passed over if the type is no keyword, whatever the field is called. -/
theorem BufferLayout.passes_fieldLine {f : Field} (htype : Text.isIdentifier f.typeName)
    (hkeyword : Keyword.ofWord? f.typeName = none) (hname : Text.isIdentifier f.name) :
    Context.start.Passes (fieldLine f).toList .start := by
  have hsize : (Declarator.sizeText f.arraySize).toList.all isPlain := by
    refine List.all_eq_true.2 fun c hc => ?_
    rcases Declarator.eq_or_isDigit_of_mem_sizeText hc with rfl | rfl | hdigit
    · rfl
    · rfl
    · exact Source.isPlain_of_isNamePart (Text.isNamePart_of_isDigit hdigit)
  have hdeclared : (f.name ++ Declarator.sizeText f.arraySize).toList.all isPlain := by
    rw [String.toList_append, List.all_append, all_isPlain_of_isIdentifier hname, hsize]
    rfl
  rw [fieldLine, Declarator.render_eq]
  cases hprecision : f.precision with
  | none =>
    have hline := Context.Passes.member htype hkeyword hdeclared
    simpa [Declarator.precisionText] using hline
  | some p =>
    have hword : Text.isIdentifier p.word ∧ Keyword.ofWord? p.word = none := by
      cases p <;> decide
    have hrest : (f.typeName.toList ++ ' ' ::
        (f.name ++ Declarator.sizeText f.arraySize).toList).all isPlain := by
      rw [List.all_append, List.all_cons, all_isPlain_of_isIdentifier htype, hdeclared]
      rfl
    have hline := Context.Passes.member hword.1 hword.2 hrest
    simpa [Declarator.precisionText] using hline

/-- The block of a buffer is passed over if its lines are. -/
theorem BufferLayout.passes_declaration {layout : BufferLayout} {groupName : String}
    (hname : groupName.toList.all isPlain)
    (hfields : ∀ f ∈ layout.fields, Context.start.Passes (fieldLine f).toList .start)
    (group slot : Nat) :
    Context.start.Passes (layout.declaration group slot groupName).toList .start := by
  have harguments : ("set = ".toList ++ (toString group).toList ++ ", binding = ".toList ++
      (toString slot).toList ++ ", std140".toList).all isPlain := by
    simp only [List.all_append, all_isPlain_toString]
    rfl
  have hdeclared : (" uniform ub_".toList ++ groupName.toList ++ [' ']).all isPlain := by
    simp only [List.all_append, hname]
    rfl
  have hfirst := (Context.Passes.layout harguments).append
    (Context.Passes.line (d := '{') hdeclared rfl)
  have hclose : Context.start.Passes ['}'] ⟨false, true, 0⟩ :=
    .single (by decide) (by decide) (by simp)
  have hsemicolon : Context.Passes ⟨false, true, 0⟩ [';'] ⟨false, true, 0⟩ :=
    .single (by decide) (by decide) (by simp)
  have hblock := (hfirst.append (.flatMap hfields)).append
    ((hclose.append hsemicolon).append (.newline false))
  have htext : (layout.declaration group slot groupName).toList =
      "layout(".toList ++ ("set = ".toList ++ (toString group).toList ++ ", binding = ".toList ++
        (toString slot).toList ++ ", std140".toList) ++ [')'] ++ (" uniform ub_".toList ++
          groupName.toList ++ [' '] ++ ['{'] ++ ['\n']) ++
            layout.fields.flatMap (fun f => (fieldLine f).toList) ++
              (['}'] ++ [';'] ++ ['\n']) := by
    unfold declaration
    simp only [String.toList_append, String.toList_join, List.flatMap_map, List.append_assoc]
    rfl
  rwa [htext]

namespace ResourceGroup

/-- The code of a group is passed over if the types of its values are no keywords. -/
theorem passes_code {g : ResourceGroup} (hname : g.name.toList.all isPlain)
    (hfields : ∀ f ∈ g.fields, Text.isIdentifier f.typeName ∧ Keyword.ofWord? f.typeName = none ∧
      Text.isIdentifier f.name)
    (htextures : ∀ t ∈ g.bindings.textures, Text.isIdentifier t.name) :
    Context.start.Passes g.code.toList .start := by
  have hbuffer : Context.start.Passes g.bufferCode.toList .start := by
    rw [bufferCode]
    rw [fields] at hfields
    cases hlayout : g.layout with
    | none => exact .nil _
    | some layout =>
      rw [hlayout] at hfields
      refine BufferLayout.passes_declaration hname (fun f hf => ?_) _ _
      obtain ⟨htype, hkeyword, hname⟩ := hfields f hf
      exact BufferLayout.passes_fieldLine htype hkeyword hname
  have htexture : Context.start.Passes g.bindings.textureDeclarations.toList .start := by
    rw [BindingTable.textureDeclarations, String.toList_join, List.flatMap_map]
    exact .flatMap fun t ht => Texture.passes_declaration (htextures t ht) g.bindings.group
  rw [code, String.toList_append]
  exact hbuffer.append htexture

/-- With the standard tables, the code of a group that is made of uniforms is passed over. -/
theorem passes_code_of_ofUniforms {sampling : HighpSampling} {group : Nat} {name : String}
    (hname : name.toList.all isPlain) {us : List Uniform} (hus : ∀ u ∈ us, u.IsRead)
    {g : ResourceGroup} (h : ofUniforms .standard sampling group name us = .ok g) :
    Context.start.Passes g.code.toList .start := by
  obtain ⟨ms, hms, ts, hts, rfl⟩ := ofParts_eq_ok_iff.1 h
  refine passes_code hname (fun f hf => ?_) fun t ht => ?_
  · rw [fields_ofMembers?] at hf
    have hmember : f.toMember ∈ ms := by
      rw [← BufferLayout.map_toMember_fieldsFrom 0 ms]
      exact List.mem_map_of_mem hf
    obtain ⟨u, hu, hmember⟩ := (Outcome.mem_iff_of_mapM_eq_ok hms).1 hmember
    obtain ⟨-, hcount, -, hdeclarator⟩ := Member.ofUniform_eq_ok_iff.1 hmember
    obtain ⟨htype, hkeyword⟩ := HostTables.typeName_of_standard hcount
    have hread := Declarator.isIdentifier_of_parse (hus u (List.mem_filter.1 hu).1)
    rw [← hdeclarator] at hread
    rw [← hdeclarator] at htype hkeyword
    exact ⟨htype, hkeyword, hread⟩
  · have hnamed : t.name ∈ (us.filter (·.isTexture)).map (·.name) := by
      rw [← map_name_of_map_viewOf hts.map_eq]
      exact List.mem_map_of_mem ht
    obtain ⟨u, hu, hname⟩ := List.mem_map.1 hnamed
    rw [← hname]
    exact Declarator.isIdentifier_of_parse (hus u (List.mem_filter.1 hu).1)

end ResourceGroup

/-! ## Linked pairs -/

namespace Linker

variable {linker : Linker}

/-- With the standard tables and group names that are plain, such as names of letters, digits and
underscores, the code of every scope that the linker prepares and of the mesh group of every linked
pair is inert, whatever its fields and textures are called. -/
theorem inert_code (htables : linker.tables = .standard)
    (hnames : ∀ name ∈ linker.options.groups.names, name.toList.all isPlain) :
    (∀ number lines g, linker.outerGroup number lines = .ok g → Inert g.scope.code) ∧
      ∀ request pair, linker.link request = .ok pair → Inert pair.assignment.mesh.code := by
  constructor
  · intro number lines g h
    obtain ⟨name, hname, us, hus, hg⟩ := uniforms_of_outerGroup h
    rw [htables] at hg
    have hplain := hnames name (List.mem_append_left _ (List.mem_of_getElem? hname))
    exact (ResourceGroup.passes_code_of_ofUniforms hplain
      (Uniform.collected_of_merge hus).isRead hg).inert g.closed_code
  · intro request pair h
    obtain ⟨-, vs, -, fs, -, a, ha, rfl⟩ := link_eq_ok_iff.1 h
    obtain ⟨us, hus, hmesh⟩ := uniforms_and_mesh_of_assign ha
    rw [htables] at hmesh
    have hplain := hnames _ (List.mem_append_right _ (List.mem_singleton_self _))
    refine (ResourceGroup.passes_code_of_ofUniforms hplain (fun u hu => ?_) hmesh).inert
      a.mesh.closed_code
    exact (Uniform.collected_of_merge hus).isRead u (List.mem_filter.1 hu).1

/-- A surface with uniforms that are called like keywords. -/
def keywordRequest : LinkRequest where
  vertex := "uniform mat4 out;\n"
  fragment := "uniform vec4 uniform;\nuniform sampler2D varying;\n"
  semantics := ∅
  formats := fun _ => none
  scopes := []

/-- A scope and a mesh group with fields and textures that are called like keywords. -/
theorem inert_code_keywordRequest :
    ∃ g pair,
      outerGroup ⟨.standard, .standard⟩ 0 ["vec4 out", "highp float uniform", "sampler2D varying"] =
        .ok g ∧
      link ⟨.standard, .standard⟩ keywordRequest = .ok pair ∧
      g.fields.map (·.name) = ["out", "uniform"] ∧
      pair.assignment.mesh.bindings.textures.map (·.name) = ["varying"] ∧
      Inert g.scope.code ∧ Inert pair.assignment.mesh.code := by
  have hfound : (do
      let g ← outerGroup ⟨.standard, .standard⟩ 0
        ["vec4 out", "highp float uniform", "sampler2D varying"]
      let pair ← link ⟨.standard, .standard⟩ keywordRequest
      return (g.fields.map (·.name), pair.assignment.mesh.bindings.textures.map (·.name)) :
        Except LinkError (List String × List String)) = .ok (["out", "uniform"], ["varying"]) := by
    decide +kernel
  obtain ⟨g, hg, hfound⟩ := Outcome.bind_eq_ok_iff.1 hfound
  obtain ⟨pair, hpair, hfound⟩ := Outcome.bind_eq_ok_iff.1 hfound
  obtain ⟨hscope, hmesh⟩ := Prod.mk.inj (Except.ok.inj hfound)
  have hinert := @inert_code ⟨.standard, .standard⟩ rfl (by decide)
  exact ⟨g, pair, hg, hpair, hscope, hmesh, hinert.1 0 _ g hg, hinert.2 _ pair hpair⟩

end Linker

end ShaderInterface
