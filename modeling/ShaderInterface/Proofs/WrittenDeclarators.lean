import ShaderInterface.Proofs.Faults
import ShaderInterface.Proofs.Merging
import ShaderInterface.Proofs.Numerals

/-!
# Written declarators

How a declarator can be written: a precision, a type, a name and an array size in brackets
(`Declarator.IsWritten`). A declarator is read from exactly the texts in which it is written
(`Declarator.parse_eq_ok_iff_isWritten`), and what was read is written in its rendering too
(`Declarator.IsWritten.render`).
-/

namespace ShaderInterface

/-! ## Words and blanks -/

namespace Text

/-- What continues an identifier is not blank. -/
theorem isBlank_eq_false_of_isNamePart {c : Char} (h : isNamePart c) : isBlank c = false := by
  have hcode := toNat_of_isNamePart h
  simp only [isBlank, Bool.or_eq_false_iff, Bool.and_eq_false_iff, decide_eq_false_iff_not,
    beq_eq_false_iff_ne]
  omega

/-- An identifier is a word. -/
theorem isWord_of_isIdentifier {s : String} (h : isIdentifier s) : IsWord s := by
  constructor
  case ne_empty =>
    rintro rfl
    contradiction
  case not_isBlank =>
    intro c hc
    apply isBlank_eq_false_of_isNamePart
    exact List.all_eq_true.1 (all_isNamePart_of_isIdentifier h) c hc

/-- A digit continues an identifier. -/
theorem isNamePart_of_isDigit {c : Char} (h : c.isDigit) : isNamePart c := by
  simp only [isNamePart, Char.isAlphanum, h, Bool.or_true, Bool.true_or]

/-- A numeral holds nothing that does not continue an identifier. -/
theorem IsNumeral.isNamePart {cs : List Char} {n : Nat} (h : IsNumeral cs n) :
    ∀ c ∈ cs, Text.isNamePart c :=
  fun c hc => isNamePart_of_isDigit (h.isDigit c hc)

/-- A run of spaces. -/
def spaces (n : Nat) : List Char := List.replicate n ' '

/-- Spaces are blank. -/
theorem isBlank_of_mem_spaces {n : Nat} {c : Char} (h : c ∈ spaces n) : isBlank c := by
  rw [(List.mem_replicate.1 h).2]
  rfl

/-- A run of spaces holds nothing else. -/
theorem notMem_spaces {n : Nat} {c : Char} (hc : c ≠ ' ') : c ∉ spaces n :=
  fun h => hc (List.mem_replicate.1 h).2

section

variable {ws : List String} (hws : ∀ w ∈ ws, IsWord w) {blanks rest : List Char}
  (hblanks : ∀ c ∈ blanks, isBlank c)

include hws hblanks

/-- The blanks between words with one space between neighbours are spaces. -/
theorem eq_spaces_of_subset_intercalate (hsubset : blanks ⊆ (" ".intercalate ws).toList) :
    ∃ n, blanks = spaces n :=
  ⟨_, List.eq_replicate_of_mem fun c hc =>
    eq_space_of_mem_intercalate hws (hsubset hc) (hblanks c hc)⟩

/-- There are no blanks in front of words. -/
theorem eq_nil_of_intercalate_eq_append (h : (" ".intercalate ws).toList = blanks ++ rest) :
    blanks = [] := by
  cases blanks with
  | nil => rfl
  | cons c blanks =>
    have hplain := not_isBlank_of_mem_head?_intercalate hws (c := c) (by rw [h]; rfl)
    exact absurd (hblanks c List.mem_cons_self) (Bool.eq_false_iff.1 hplain)

/-- There are no blanks behind words. -/
theorem eq_nil_of_intercalate_eq_append' (h : (" ".intercalate ws).toList = rest ++ blanks) :
    blanks = [] := by
  rcases List.eq_nil_or_concat blanks with rfl | ⟨blanks, c, rfl⟩
  · rfl
  · have hplain := not_isBlank_of_mem_getLast?_intercalate hws (c := c)
      (by rw [h, List.concat_eq_append, ← List.append_assoc, List.getLast?_concat]; rfl)
    exact absurd (hblanks c (by simp)) (Bool.eq_false_iff.1 hplain)

end

end Text

/-! ## Precisions -/

namespace Precision

/-- A word is read as a precision if it is the word of that precision. -/
theorem ofWord?_eq_some_iff {w : String} {p : Precision} : ofWord? w = some p ↔ w = p.word := by
  constructor
  · intro h
    unfold ofWord? at h
    split at h
    · next hw => rw [hw, ← Option.some.inj h, word]
    split at h
    · next hw => rw [hw, ← Option.some.inj h, word]
    split at h
    · next hw => rw [hw, ← Option.some.inj h, word]
    · contradiction
  · rintro rfl
    exact ofWord?_word p

/-- A precision is a word. -/
theorem isWord (p : Precision) : Text.IsWord p.word := by
  apply Text.isWord_of_isIdentifier
  cases p <;> decide

end Precision

namespace Declarator

/-- The precision as it stands in front of the words of a declarator. -/
def precisionWords (p : Option Precision) : List String :=
  (p.map Precision.word).toList

/-- The precision as it stands in front of the text of a declarator. -/
def precisionText (p : Option Precision) : String :=
  (p.map (·.word ++ " ")).getD ""

/-- A precision is taken from the front of the words if there is one. -/
theorem takePrecision_eq_iff {ws rest : List String} {p : Option Precision} :
    takePrecision ws = (p, rest) ↔ ws = precisionWords p ++ rest ∧
      (p = none → ∀ w ∈ rest.head?, ∀ q : Precision, w ≠ q.word) := by
  constructor
  · intro h
    unfold takePrecision at h
    split at h
    · obtain ⟨rfl, rfl⟩ := Prod.mk.inj h
      exact ⟨rfl, by simp⟩
    split at h
    · next q hword =>
      obtain ⟨rfl, rfl⟩ := Prod.mk.inj h
      rw [Precision.ofWord?_eq_some_iff.1 hword]
      exact ⟨rfl, by simp⟩
    · next hword =>
      obtain ⟨rfl, rfl⟩ := Prod.mk.inj h
      refine ⟨rfl, fun _ w hw q hq => ?_⟩
      rw [Option.mem_some.1 hw, hq, Precision.ofWord?_word] at hword
      contradiction
  · rintro ⟨rfl, hfirst⟩
    cases p with
    | some q =>
      show takePrecision (q.word :: rest) = _
      rw [takePrecision, Precision.ofWord?_word]
    | none =>
      cases rest with
      | nil => rfl
      | cons w rest =>
        have hword : Precision.ofWord? w = none := by
          rw [Option.eq_none_iff_forall_ne_some]
          exact fun q hq => hfirst rfl w rfl q (Precision.ofWord?_eq_some_iff.1 hq)
        show takePrecision (w :: rest) = _
        rw [takePrecision, hword]

/-- A declarator is read from its words. -/
theorem parse_eq_ok_iff {text : String} {d : Declarator} :
    parse text = .ok d ↔ ∃ ws, Text.words text = precisionWords d.precision ++ d.typeName :: ws ∧
      (d.precision = none → ∀ q : Precision, d.typeName ≠ q.word) ∧ ',' ∉ text.toList ∧
      '[' ∉ d.typeName.toList ∧
      splitArraySize (" ".intercalate ws).toList = .ok (d.name.toList, d.arraySize) ∧
      Text.isIdentifier d.name := by
  unfold parse
  constructor
  · intro h
    rcases htake : takePrecision (Text.words text) with ⟨precision, _ | ⟨typeName, ws⟩⟩
    · rw [htake] at h
      contradiction
    rw [htake] at h
    dsimp only at h
    split at h
    · contradiction
    next hcomma =>
    split at h
    · contradiction
    next hbracket =>
    split at h
    · contradiction
    next name size hsplit =>
    split at h
    · next hid =>
      obtain rfl := Except.ok.inj h
      obtain ⟨hwords, hnone⟩ := takePrecision_eq_iff.1 htake
      refine ⟨ws, hwords, fun hp => hnone hp typeName rfl, ?_, ?_, ?_, hid⟩
      · rwa [List.contains_iff_mem] at hcomma
      · rwa [List.contains_iff_mem] at hbracket
      · rw [hsplit, String.toList_ofList]
    · contradiction
  · rintro ⟨ws, hwords, hnone, hcomma, hbracket, hsplit, hid⟩
    have htake : takePrecision (Text.words text) = (d.precision, d.typeName :: ws) := by
      refine takePrecision_eq_iff.2 ⟨hwords, fun hp w hw => ?_⟩
      obtain rfl := Option.mem_some.1 hw
      exact hnone hp
    rw [htake]
    dsimp only
    rw [← List.contains_iff_mem] at hcomma hbracket
    rw [if_neg hcomma, if_neg hbracket, hsplit]
    dsimp only
    rw [String.ofList_toList, if_pos hid]

/-! ## Array sizes -/

/-- What can stand behind the name: nothing, or the size in brackets, with spaces around the
brackets and the digits. -/
inductive IsSize : List Char → Nat → Prop where
  | absent : IsSize [] 0
  | brackets (before inside behind : Nat) {digits : List Char} {n : Nat}
      (hdigits : Text.IsNumeral digits n) (hmax : n ≤ maxArraySize) :
      IsSize (Text.spaces before ++
        '[' :: (Text.spaces inside ++ (digits ++ Text.spaces behind) ++ [']'])) n

/-- A size is read from behind the name. -/
theorem IsSize.splitArraySize_eq {name : String} (hname : Text.isIdentifier name)
    {size : List Char} {n : Nat} (h : IsSize size n) :
    splitArraySize (name.toList ++ size) = .ok (name.toList, n) := by
  have hopen : '[' ∉ name.toList := Text.notMem_of_isIdentifier hname (by decide)
  have hclose : ']' ∉ name.toList := Text.notMem_of_isIdentifier hname (by decide)
  have hplain := (Text.isWord_of_isIdentifier hname).not_isBlank
  cases h with
  | absent => rw [List.append_nil, splitArraySize_of_notMem hopen]
  | brackets before inside behind hdigits hmax =>
    next digits =>
    have hindexed : IsIndexed
        (name.toList ++ (Text.spaces before ++
          '[' :: (Text.spaces inside ++ (digits ++ Text.spaces behind) ++ [']'])))
        (name.toList ++ Text.spaces before)
        (Text.spaces inside ++ (digits ++ Text.spaces behind)) := by
      have hbracket : ']' ∉ digits := fun hmem => absurd (hdigits.isNamePart _ hmem) (by decide)
      refine ⟨[], by simp only [List.append_assoc], ?_, ?_, ?_, by simp⟩
      · rw [List.mem_append, not_or]
        exact ⟨hopen, Text.notMem_spaces (by decide)⟩
      · rw [List.mem_append, not_or]
        exact ⟨hclose, Text.notMem_spaces (by decide)⟩
      · rw [List.mem_append, List.mem_append, not_or, not_or]
        exact ⟨Text.notMem_spaces (by decide), hbracket, Text.notMem_spaces (by decide)⟩
    have hsize : Text.trim (Text.spaces inside ++ (digits ++ Text.spaces behind)) = digits :=
      Text.trim_append (fun _ => Text.isBlank_of_mem_spaces)
        (fun c hc => Text.isBlank_eq_false_of_isNamePart (hdigits.isNamePart c hc))
        (fun _ => Text.isBlank_of_mem_spaces)
    have htrim : Text.trim (name.toList ++ Text.spaces before) = name.toList := by
      rw [← List.nil_append (name.toList ++ _)]
      exact Text.trim_append (by simp) hplain fun _ => Text.isBlank_of_mem_spaces
    rw [hindexed.splitArraySize_eq, hsize, htrim, Text.readNumeral_eq_some_iff.2 ⟨hdigits, hmax⟩]
    rfl

/-- In front of the brackets, and in them, only spaces stand around what is read. -/
theorem IsIndexed.intercalate_eq {ws : List String} (hws : ∀ w ∈ ws, Text.IsWord w)
    {name size : List Char} (h : IsIndexed (" ".intercalate ws).toList name size) :
    ∃ before inside behind, (" ".intercalate ws).toList =
      Text.trim name ++ (Text.spaces before ++
        '[' :: (Text.spaces inside ++ (Text.trim size ++ Text.spaces behind) ++ [']'])) := by
  obtain ⟨blanks, hnames, -, -, -, hblanks⟩ := h
  obtain ⟨start, before, hname, hstart, hbefore⟩ := Text.exists_eq_append_trim name
  obtain ⟨inside, behind, hsize, hinside, hbehind⟩ := Text.exists_eq_append_trim size
  have hspaces : ∀ blanks : List Char, (∀ c ∈ blanks, Text.isBlank c) →
      blanks ⊆ name ∨ blanks ⊆ size → ∃ n, blanks = Text.spaces n := by
    intro blanks hblanks hsubset
    refine Text.eq_spaces_of_subset_intercalate hws hblanks fun c hc => ?_
    rw [hnames, List.mem_append, List.mem_cons, List.mem_append]
    exact hsubset.imp (fun h => h hc) fun h => .inr (.inl (h hc))
  obtain ⟨b, hb⟩ := hspaces before hbefore (.inl (by rw [hname]; simp))
  obtain ⟨i, hi⟩ := hspaces inside hinside (.inr (by rw [hsize]; simp))
  obtain ⟨e, he⟩ := hspaces behind hbehind (.inr (by rw [hsize]; simp))
  -- the words begin with the name and end with the bracket
  have hfirst : start = [] := by
    rw [hname, List.append_assoc] at hnames
    exact Text.eq_nil_of_intercalate_eq_append hws hstart hnames
  have hlast : blanks = [] := by
    have hend : name ++ '[' :: (size ++ ']' :: blanks) =
        (name ++ '[' :: (size ++ [']'])) ++ blanks := by simp
    rw [hend] at hnames
    exact Text.eq_nil_of_intercalate_eq_append' hws hblanks hnames
  refine ⟨b, i, e, ?_⟩
  rw [← hb, ← hi, ← he, ← hsize, hnames, hlast]
  nth_rewrite 1 [hname]
  rw [hfirst, List.nil_append, List.append_assoc]

/-- Only a size is read from behind a name. -/
theorem isSize_of_splitArraySize {ws : List String} (hws : ∀ w ∈ ws, Text.IsWord w)
    {name : List Char} {n : Nat}
    (h : splitArraySize (" ".intercalate ws).toList = .ok (name, n)) :
    ∃ size, IsSize size n ∧ (" ".intercalate ws).toList = name ++ size := by
  by_cases hopen : '[' ∈ (" ".intercalate ws).toList
  case neg =>
    rw [splitArraySize_of_notMem hopen] at h
    obtain ⟨rfl, rfl⟩ := Prod.mk.inj (Except.ok.inj h)
    exact ⟨[], .absent, (List.append_nil _).symm⟩
  by_cases hform : ∃ front size, IsIndexed (" ".intercalate ws).toList front size
  case neg =>
    rw [splitArraySize_of_not_isIndexed hopen hform] at h
    contradiction
  obtain ⟨front, size, hindexed⟩ := hform
  rw [hindexed.splitArraySize_eq] at h
  cases hnumeral : Text.readNumeral maxArraySize (Text.trim size) with
  | none =>
    rw [hnumeral] at h
    contradiction
  | some m =>
    rw [hnumeral] at h
    obtain ⟨rfl, rfl⟩ := Prod.mk.inj (Except.ok.inj h)
    obtain ⟨hdigits, hmax⟩ := Text.readNumeral_eq_some_iff.1 hnumeral
    obtain ⟨before, inside, behind, hnames⟩ := hindexed.intercalate_eq hws
    exact ⟨_, .brackets before inside behind hdigits hmax, hnames⟩

/-! ## Whole declarators -/

/-- The words of a text behind a precision. -/
theorem words_precisionText_append (p : Option Precision) (s : String) :
    Text.words (precisionText p ++ s) = precisionWords p ++ Text.words s := by
  cases p with
  | none => exact congrArg Text.words String.empty_append
  | some p =>
    have htext : precisionText (some p) ++ s = p.word ++ (" " ++ s) := String.append_assoc ..
    rw [htext, Text.words_append_space p.isWord]
    rfl

/-- The words of a declarator with one space between neighbours. -/
theorem intercalate_precisionWords (p : Option Precision) (typeName : String) {ws : List String}
    (hws : ws ≠ []) : " ".intercalate (precisionWords p ++ typeName :: ws) =
      precisionText p ++ (typeName ++ (" " ++ " ".intercalate ws)) := by
  obtain ⟨w, ws, rfl⟩ := List.exists_cons_of_ne_nil hws
  have htype : " ".intercalate (typeName :: w :: ws) =
      typeName ++ (" " ++ " ".intercalate (w :: ws)) := by
    rw [String.intercalate_cons_cons, String.append_assoc]
  cases p with
  | none =>
    rw [← htype]
    exact String.empty_append.symm
  | some p =>
    have hwords : precisionWords (some p) ++ typeName :: w :: ws = p.word :: typeName :: w :: ws :=
      rfl
    rw [hwords, String.intercalate_cons_cons, htype]
    rfl

/-- The declarator is written in the text. -/
structure IsWritten (d : Declarator) (text : String) : Prop where
  /-- The text declares one variable. -/
  noComma : ',' ∉ text.toList
  typeWord : Text.IsWord d.typeName
  noBracket : '[' ∉ d.typeName.toList
  /-- The word of a precision that stands in front is the precision, and never the type. -/
  noPrecision : d.precision = none → ∀ p : Precision, d.typeName ≠ p.word
  name : Text.isIdentifier d.name
  /-- With one space between its words, the text is an optional precision, the type, the name and
  an optional size in brackets. -/
  form : ∃ size, IsSize size d.arraySize ∧ Text.collapse text =
    precisionText d.precision ++ (d.typeName ++ (" " ++ (d.name ++ String.ofList size)))

/-- The parts of a declarator are words of the text in which it is written. -/
theorem IsWritten.words_eq {d : Declarator} {text : String} (h : d.IsWritten text) :
    ∃ size, IsSize size d.arraySize ∧ ∃ ws, " ".intercalate ws = d.name ++ String.ofList size ∧
      Text.words text = precisionWords d.precision ++ d.typeName :: ws := by
  obtain ⟨size, hsize, hform⟩ := h.form
  have hwords : Text.words text = precisionWords d.precision ++
      d.typeName :: Text.words (d.name ++ String.ofList size) := by
    rw [← Text.words_collapse, hform, words_precisionText_append,
      Text.words_append_space h.typeWord]
  have hne : Text.words (d.name ++ String.ofList size) ≠ [] :=
    Text.words_append_ne_nil (Text.isWord_of_isIdentifier h.name) _
  refine ⟨size, hsize, _, ?_, hwords⟩
  rw [Text.collapse, hwords, intercalate_precisionWords _ _ hne] at hform
  simpa only [String.append_right_inj] using hform

/-- A declarator is read from exactly the texts in which it is written. -/
theorem parse_eq_ok_iff_isWritten {text : String} {d : Declarator} :
    parse text = .ok d ↔ d.IsWritten text := by
  rw [parse_eq_ok_iff]
  constructor
  · rintro ⟨ws, hwords, hnone, hcomma, hbracket, hsplit, hname⟩
    have hall : ∀ w ∈ precisionWords d.precision ++ d.typeName :: ws, Text.IsWord w := by
      rw [← hwords]
      exact fun _ => Text.isWord_of_mem_words
    rw [List.forall_mem_append, List.forall_mem_cons] at hall
    obtain ⟨size, hsize, hnames⟩ := isSize_of_splitArraySize hall.2.2 hsplit
    have hne : ws ≠ [] := by
      rintro rfl
      obtain ⟨hnil, -⟩ := List.append_eq_nil_iff.1 hnames.symm
      exact (Text.isWord_of_isIdentifier hname).ne_empty (String.toList_eq_nil_iff.1 hnil)
    refine ⟨hcomma, hall.2.1, hbracket, hnone, hname, size, hsize, ?_⟩
    rw [Text.collapse, hwords, intercalate_precisionWords _ _ hne]
    have hrest : " ".intercalate ws = d.name ++ String.ofList size := by
      rw [← String.toList_inj, hnames, String.toList_append, String.toList_ofList]
    rw [hrest]
  · intro h
    obtain ⟨size, hsize, ws, hnames, hwords⟩ := h.words_eq
    refine ⟨ws, hwords, h.noPrecision, h.noComma, h.noBracket, ?_, h.name⟩
    rw [hnames, String.toList_append, String.toList_ofList]
    exact hsize.splitArraySize_eq h.name

/-- Blanks around the parts are dropped, and zeros in front of the size. -/
example : parse " highp\tfloat weights [ 04 ]\n" = .ok ⟨some .high, "float", "weights", 4⟩ := by
  decide

/-! ## Renderings -/

/-- The size as it stands in the written form of a declarator. -/
def sizeText (n : Nat) : String :=
  if n = 0 then "" else "[" ++ toString n ++ "]"

/-- The written form of a declarator has the parts of the declarator. -/
theorem render_eq (d : Declarator) : d.render =
    precisionText d.precision ++ (d.typeName ++ (" " ++ (d.name ++ sizeText d.arraySize))) := by
  unfold render precisionText sizeText
  cases d.precision <;>
    simp only [String.append_assoc, Option.map_none, Option.getD_none, Option.map_some,
      Option.getD_some]

/-- A size is at most the greatest one. -/
theorem IsSize.le {size : List Char} {n : Nat} (h : IsSize size n) : n ≤ maxArraySize := by
  cases h with
  | absent => exact Nat.zero_le _
  | brackets _ _ _ _ hmax => exact hmax

/-- The size in the written form is a size without spaces. -/
theorem isSize_sizeText {n : Nat} (h : n ≤ maxArraySize) : IsSize (sizeText n).toList n := by
  unfold sizeText
  split
  · next hzero =>
    rw [hzero]
    exact .absent
  · have hsize := IsSize.brackets 0 0 0 (Text.isNumeral_toString n) h
    simpa [Text.spaces] using hsize

/-- The size in the written form has brackets and digits. -/
theorem eq_or_isDigit_of_mem_sizeText {n : Nat} {c : Char} (h : c ∈ (sizeText n).toList) :
    c = '[' ∨ c = ']' ∨ c.isDigit := by
  unfold sizeText at h
  split at h
  · contradiction
  · rw [String.toList_append, String.toList_append, List.mem_append, List.mem_append] at h
    obtain (h | h) | h := h
    · exact .inl (List.mem_singleton.1 h)
    · exact .inr (.inr (Text.isDigit_of_mem_toString h))
    · exact .inr (.inl (List.mem_singleton.1 h))

/-- A name with the size of the written form behind it is one word. -/
theorem isWord_append_sizeText {name : String} (hname : Text.isIdentifier name) (n : Nat) :
    Text.IsWord (name ++ sizeText n) := by
  have hword := Text.isWord_of_isIdentifier hname
  constructor
  case ne_empty => exact fun h => hword.ne_empty (String.append_eq_empty_iff.1 h).1
  case not_isBlank =>
    intro c hc
    rw [String.toList_append, List.mem_append] at hc
    obtain hc | hc := hc
    · exact hword.not_isBlank c hc
    · obtain rfl | rfl | hdigit := eq_or_isDigit_of_mem_sizeText hc
      · rfl
      · rfl
      · exact Text.isBlank_eq_false_of_isNamePart (Text.isNamePart_of_isDigit hdigit)

variable {d : Declarator} {text : String}

/-- Only single spaces part the words of a written form. -/
theorem IsWritten.collapse_render (h : d.IsWritten text) : Text.collapse d.render = d.render := by
  rw [Text.collapse, render_eq, words_precisionText_append, Text.words_append_space h.typeWord,
    Text.words_of_isWord (isWord_append_sizeText h.name d.arraySize),
    intercalate_precisionWords _ _ (List.cons_ne_nil _ _), String.intercalate_singleton]

/-- A written form declares one variable. -/
theorem IsWritten.comma_notMem_render (h : d.IsWritten text) : ',' ∉ d.render.toList := by
  have hprecision : ',' ∉ (precisionText d.precision).toList := by
    rcases d.precision with _ | _ | _ | _ <;> decide
  have htype : ',' ∉ d.typeName.toList := by
    obtain ⟨size, -, ws, -, hwords⟩ := h.words_eq
    have hword : d.typeName ∈ Text.words text := by simp [hwords]
    exact fun hmem => h.noComma (Text.exists_mem_words_iff.1 ⟨d.typeName, hword, hmem⟩).1
  have hname : ',' ∉ d.name.toList := Text.notMem_of_isIdentifier h.name (by decide)
  have hsize : ',' ∉ (sizeText d.arraySize).toList := fun hmem =>
    absurd (eq_or_isDigit_of_mem_sizeText hmem) (by decide)
  simp only [render_eq, String.toList_append, List.mem_append, not_or]
  exact ⟨hprecision, htype, by decide, hname, hsize⟩

/-- A declarator is written in its own written form. -/
theorem IsWritten.render (h : d.IsWritten text) : d.IsWritten d.render := by
  obtain ⟨size, hsize, -⟩ := h.form
  refine ⟨h.comma_notMem_render, h.typeWord, h.noBracket, h.noPrecision, h.name,
    (sizeText d.arraySize).toList, isSize_sizeText hsize.le, ?_⟩
  rw [h.collapse_render, render_eq, String.ofList_toList]

/-- The written form of a declarator is read as that declarator. -/
theorem parse_render (h : parse text = .ok d) : parse d.render = .ok d :=
  parse_eq_ok_iff_isWritten.2 (parse_eq_ok_iff_isWritten.1 h).render

end Declarator

/-- What uniforms declare is written in their texts. -/
theorem Uniform.exists_isWritten_of_mem {us : List Uniform} (hus : ∀ u ∈ us, u.IsRead)
    {d : Declarator} (hd : d ∈ us.map (·.toDeclarator)) : ∃ text, d.IsWritten text := by
  obtain ⟨u, hu, rfl⟩ := List.mem_map.1 hd
  exact ⟨u.text, Declarator.parse_eq_ok_iff_isWritten.1 (hus u hu)⟩

/-- A uniform is read from exactly the texts in which a declarator is written, and it is that
declarator. It is a texture if its type speaks of a sampler, and its written form is read as the
same declarator in every stage. -/
theorem Uniform.parse_iff_isWritten (stage : Stage) (text : String) :
    ((∃ u, parse stage text = .ok u) ↔ ∃ d : Declarator, d.IsWritten text) ∧
    (∀ u : Uniform, parse stage text = .ok u ↔
      u.toDeclarator.IsWritten text ∧ u.text = text ∧ u.stage = stage) ∧
    ∀ u : Uniform, parse stage text = .ok u →
      (u.isTexture ↔ "sampler".toList <:+: u.typeName.toList) ∧
      ∀ stage', parse stage' u.render = .ok ⟨u.toDeclarator, u.render, stage'⟩ := by
  have hread : ∀ u : Uniform, parse stage text = .ok u ↔
      u.toDeclarator.IsWritten text ∧ u.text = text ∧ u.stage = stage := by
    intro u
    rw [parse_eq_ok_iff, Declarator.parse_eq_ok_iff_isWritten]
  refine ⟨⟨?_, ?_⟩, hread, fun u hu => ⟨u.isTexture_iff, fun stage' => ?_⟩⟩
  · rintro ⟨u, hu⟩
    exact ⟨u.toDeclarator, ((hread u).1 hu).1⟩
  · rintro ⟨d, hd⟩
    exact ⟨⟨d, text, stage⟩, (hread _).2 ⟨hd, rfl, rfl⟩⟩
  · refine parse_eq_ok_iff.2 ⟨?_, rfl, rfl⟩
    exact Declarator.parse_render (parse_eq_ok_iff.1 hu).1

end ShaderInterface
