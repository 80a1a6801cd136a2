import Mathlib.Data.List.Infix
import ShaderInterface.Proofs.Spans

/-!
# Layout qualifiers in a text

The resources of a shader are declared with layout qualifiers `layout(set = …, binding = …`, which
give them a group and a slot. `layouts` reads the qualifiers from a text, wherever they stand.
`HasLayouts` is what is known of a text that is a part of another one.
-/

namespace ShaderInterface.Text

/-! ## Numbers -/

/-- Reads the number in front of a text. -/
def readNumber? (cs : List Char) : Option (Nat × List Char) :=
  let digits := cs.takeWhile Char.isDigit
  if digits = [] then none else some (Nat.ofDigitChars 10 digits 0, cs.dropWhile Char.isDigit)

/-- What is read is a run of digits and what stands behind it. -/
theorem readNumber?_eq_some_iff {cs rest : List Char} {n : Nat} :
    readNumber? cs = some (n, rest) ↔ ∃ digits, cs = digits ++ rest ∧ digits ≠ [] ∧
      (∀ c ∈ digits, c.isDigit) ∧ (∀ c ∈ rest.head?, ¬ c.isDigit) ∧
        Nat.ofDigitChars 10 digits 0 = n := by
  rw [readNumber?]
  constructor
  · intro h
    split at h
    · contradiction
    · next hne =>
      obtain ⟨rfl, rfl⟩ := Prod.mk.inj (Option.some.inj h)
      exact ⟨_, List.takeWhile_append_dropWhile.symm, hne, fun c hc => List.mem_takeWhile_imp hc,
        fun c hc => not_of_mem_head?_dropWhile hc, rfl⟩
  · rintro ⟨digits, rfl, hne, hdigits, hrest, rfl⟩
    rw [takeWhile_append_eq hdigits hrest, dropWhile_append_eq hdigits hrest, if_neg hne]

/-- The written form of a number has digits only. -/
theorem isDigit_of_mem_toString {n : Nat} {c : Char} (h : c ∈ (toString n).toList) : c.isDigit := by
  rw [Nat.toString_eq_repr, Nat.toList_repr] at h
  exact Nat.isDigit_of_mem_toDigits (Nat.succ_pos 9) (Nat.le_refl 10) h

/-! ## Qualifiers -/

/-- What stands in front of the group in a layout qualifier. -/
def setWords : List Char := "layout(set = ".toList

/-- What stands between group and slot in a layout qualifier. -/
def bindingWords : List Char := ", binding = ".toList

/-- Reads the group and the slot of the layout qualifier that begins a text. -/
def readLayout? (cs : List Char) : Option (Nat × Nat) := do
  let (group, cs) ← readNumber? (← setWords.isPrefixOf? cs)
  let (slot, _) ← readNumber? (← bindingWords.isPrefixOf? cs)
  return (group, slot)

/-- The groups and slots of all layout qualifiers in a text, in order. -/
def layouts : List Char → List (Nat × Nat)
  | [] => []
  | c :: cs => (readLayout? (c :: cs)).toList ++ layouts cs

/-- The text is a layout qualifier up to the end of the slot. -/
def IsLayout (place : Nat × Nat) (cs : List Char) : Prop :=
  ∃ group slot, cs = setWords ++ group ++ bindingWords ++ slot ∧
    (∀ c ∈ group, c.isDigit) ∧ (∀ c ∈ slot, c.isDigit) ∧ group ≠ [] ∧ slot ≠ [] ∧
      place = (Nat.ofDigitChars 10 group 0, Nat.ofDigitChars 10 slot 0)

/-- What is read is a layout qualifier of which the slot is read as far as possible. -/
theorem readLayout?_eq_some_iff {place : Nat × Nat} {cs : List Char} :
    readLayout? cs = some place ↔ ∃ qualifier rest, cs = qualifier ++ rest ∧
      IsLayout place qualifier ∧ ∀ c ∈ rest.head?, ¬ c.isDigit := by
  simp only [readLayout?, Option.bind_eq_bind, Option.bind_eq_some_iff,
    List.isPrefixOf?_eq_some_iff_append_eq, Prod.exists, readNumber?_eq_some_iff]
  constructor
  · rintro ⟨-, rfl, group, -, ⟨gs, rfl, hgs, hgroup, -, rfl⟩, -, rfl, slot, rest,
      ⟨ss, rfl, hss, hslot, hrest, rfl⟩, hplace⟩
    refine ⟨setWords ++ gs ++ bindingWords ++ ss, rest, by simp, ?_, hrest⟩
    exact ⟨gs, ss, rfl, hgroup, hslot, hgs, hss, (Option.some.inj hplace).symm⟩
  · rintro ⟨-, rest, rfl, ⟨gs, ss, rfl, hgroup, hslot, hgs, hss, rfl⟩, hrest⟩
    refine ⟨gs ++ (bindingWords ++ (ss ++ rest)), by simp, _, _, ⟨gs, rfl, hgs, hgroup, ?_, rfl⟩,
      _, rfl, _, rest, ⟨ss, rfl, hss, hslot, hrest, rfl⟩, rfl⟩
    rintro c ⟨⟩
    decide

/-- What does not begin like a layout qualifier is none. -/
theorem readLayout?_eq_none {cs : List Char} (h : ¬ setWords <+: cs) : readLayout? cs = none := by
  rw [Option.eq_none_iff_forall_ne_some]
  intro place hplace
  obtain ⟨-, rest, rfl, ⟨group, slot, rfl, -⟩, -⟩ := readLayout?_eq_some_iff.1 hplace
  exact h ⟨group ++ bindingWords ++ slot ++ rest, by simp⟩

namespace IsLayout

variable {place : Nat × Nat} {cs : List Char}

/-- A layout qualifier ends with a digit. -/
theorem isDigit_of_mem_getLast? (h : IsLayout place cs) : ∀ c ∈ cs.getLast?, c.isDigit := by
  obtain ⟨group, slot, rfl, -, hslot, -, hne, -⟩ := h
  rw [List.getLast?_append_of_ne_nil _ hne]
  exact fun c hc => hslot c (List.mem_of_mem_getLast? hc)

/-- The letter with which a layout qualifier begins is followed by the rest of its words and by
digits. -/
theorem exists_cons (h : IsLayout place cs) : ∃ rest, cs = 'l' :: rest ∧
    ∀ c ∈ rest, c ∈ setWords.tail ∨ c ∈ bindingWords ∨ c.isDigit := by
  obtain ⟨group, slot, rfl, hgroup, hslot, -⟩ := h
  refine ⟨setWords.tail ++ group ++ bindingWords ++ slot, rfl, fun c hc => ?_⟩
  simp only [List.mem_append] at hc
  obtain ((hc | hc) | hc) | hc := hc
  · exact .inl hc
  · exact .inr (.inr (hgroup c hc))
  · exact .inr (.inl hc)
  · exact .inr (.inr (hslot c hc))

/-- There is no brace in a layout qualifier. -/
theorem brace_notMem (h : IsLayout place cs) : '\x7b' ∉ cs := by
  obtain ⟨rest, rfl, hrest⟩ := h.exists_cons
  have hbrace := mt (hrest '\x7b') (by decide)
  simpa using hbrace

end IsLayout

/-- The layout qualifier of a group and a slot. -/
def qualifier (group slot : Nat) : List Char :=
  setWords ++ (toString group).toList ++ bindingWords ++ (toString slot).toList

/-- The layout qualifier of a group and a slot is read as that group and that slot. -/
theorem isLayout_qualifier (group slot : Nat) : IsLayout (group, slot) (qualifier group slot) := by
  have hne : ∀ n : Nat, (toString n).toList ≠ [] := fun n => by
    rw [Nat.toString_eq_repr, Nat.toList_repr]
    exact Nat.toDigits_ne_nil
  refine ⟨(toString group).toList, (toString slot).toList, rfl, fun _ => isDigit_of_mem_toString,
    fun _ => isDigit_of_mem_toString, hne group, hne slot, ?_⟩
  simp only [Nat.toString_eq_repr, Nat.toList_repr, Nat.ofDigitChars_ten_toDigits]

/-- The words of a layout qualifier are not in a text that has no blank between a bracket and an
equals sign. -/
theorem not_setWords_infix {front middle back : List Char} (hfront : '(' ∉ front)
    (hmiddle : ' ' ∉ middle) (hback : '=' ∉ back) : ¬ setWords <:+: front ++ (middle ++ back) := by
  rintro ⟨before, behind, h⟩
  have hbracket : front ++ (middle ++ back) =
      (before ++ "layout".toList) ++ '(' :: ("set ".toList ++ '=' :: ' ' :: behind) := by
    rw [← h, List.append_assoc, List.append_assoc]
    rfl
  obtain ⟨start, hstart⟩ : ∃ start,
      middle ++ back = (start ++ "(set ".toList) ++ '=' :: ' ' :: behind := by
    rcases List.append_eq_append_iff.1 hbracket with ⟨start, -, h⟩ | ⟨start, hstart, h⟩
    · exact ⟨start, by rw [h, List.append_assoc]; rfl⟩
    · cases start with
      | nil => exact ⟨[], h.symm⟩
      | cons c start =>
        obtain ⟨rfl, -⟩ := List.cons.inj h
        exact absurd (by simp [hstart]) hfront
  rcases List.append_eq_append_iff.1 hstart with ⟨rest, -, rfl⟩ | ⟨rest, rfl, -⟩
  · exact hback (by simp)
  · exact hmiddle (by simp)

/-- No layout qualifier reaches into the brace behind a blank. -/
theorem readLayout?_append_brace (cs rest : List Char) :
    readLayout? (cs ++ ' ' :: '\x7b' :: rest) = readLayout? cs := by
  refine Option.ext fun place => ?_
  simp only [readLayout?_eq_some_iff]
  constructor
  · rintro ⟨qualifier, behind, heq, hqualifier, hbehind⟩
    rcases List.append_eq_append_iff.1 heq with ⟨more, rfl, hmore⟩ | ⟨rest', rfl, rfl⟩
    · match more, hmore with
      | [], _ => exact ⟨cs, [], by simp, by simpa using hqualifier, by simp⟩
      | [c], hmore =>
        have hlast := hqualifier.isDigit_of_mem_getLast? c (by simp)
        obtain ⟨rfl, -⟩ := List.cons.inj hmore
        exact absurd hlast (by decide)
      | _ :: c :: more, hmore =>
        obtain ⟨-, hmore⟩ := List.cons.inj hmore
        obtain ⟨rfl, -⟩ := List.cons.inj hmore
        exact absurd (by simp) hqualifier.brace_notMem
    · refine ⟨qualifier, rest', rfl, hqualifier, fun c hc => hbehind c ?_⟩
      rw [List.head?_append, Option.mem_def.1 hc]
      rfl
  · rintro ⟨qualifier, behind, rfl, hqualifier, hbehind⟩
    refine ⟨qualifier, behind ++ ' ' :: '\x7b' :: rest, by simp, hqualifier, ?_⟩
    cases behind with
    | nil =>
      rintro c ⟨⟩
      decide
    | cons c behind => exact hbehind

/-! ## Texts in parts -/

/-- The text has the given layout qualifiers, whatever stands behind it. -/
def HasLayouts (cs : List Char) (places : List (Nat × Nat)) : Prop :=
  ∀ rest, layouts (cs ++ rest) = places ++ layouts rest

namespace HasLayouts

variable {cs cs' : List Char} {places places' : List (Nat × Nat)}

/-- The layout qualifiers of a text with nothing behind it. -/
theorem layouts_eq (h : HasLayouts cs places) : layouts cs = places := by
  have hcs := h []
  rwa [List.append_nil, layouts, List.append_nil] at hcs

/-- The empty text has no layout qualifiers. -/
theorem nil : HasLayouts [] [] :=
  fun _ => rfl

/-- A text has the layout qualifiers of its parts. -/
theorem append (h : HasLayouts cs places) (h' : HasLayouts cs' places') :
    HasLayouts (cs ++ cs') (places ++ places') := by
  intro rest
  rw [List.append_assoc, h, h', List.append_assoc]

/-- A text has the layout qualifiers of its parts. -/
theorem flatMap {α : Type} {xs : List α} {text : α → List Char} {places : α → List (Nat × Nat)}
    (h : ∀ x ∈ xs, HasLayouts (text x) (places x)) :
    HasLayouts (xs.flatMap text) (xs.flatMap places) := by
  induction xs with
  | nil => exact nil
  | cons x xs ih =>
    rw [List.forall_mem_cons] at h
    rw [List.flatMap_cons, List.flatMap_cons]
    exact h.1.append (ih h.2)

/-- A text without the first letter of a layout qualifier has none. -/
theorem of_notMem (h : 'l' ∉ cs) : HasLayouts cs [] := by
  intro rest
  induction cs with
  | nil => rfl
  | cons c cs ih =>
    rw [List.mem_cons, not_or] at h
    have hnone : readLayout? (c :: (cs ++ rest)) = none :=
      readLayout?_eq_none fun hbegins => h.1 (List.cons_prefix_cons.1 hbegins).1
    rw [List.cons_append, layouts, hnone, ih h.2]
    rfl

/-- A line in which nothing begins like a layout qualifier has none. -/
theorem line (h : ¬ setWords <:+: cs) : HasLayouts (cs ++ ['\n']) [] := by
  induction cs with
  | nil => exact of_notMem (by decide)
  | cons c cs ih =>
    have hnewline : '\n' ∉ setWords := by decide
    intro rest
    have hnone : readLayout? (c :: (cs ++ ['\n'] ++ rest)) = none := by
      refine readLayout?_eq_none fun hbegins => ?_
      -- the words of the qualifier end in front of the newline
      rcases List.prefix_or_prefix_of_prefix hbegins (List.prefix_append (c :: (cs ++ ['\n'])) rest)
        with hline | hline
      · rw [← List.cons_append, List.prefix_concat_iff] at hline
        rcases hline with heq | hline
        · exact hnewline (heq ▸ by simp)
        · exact h hline.isInfix
      · exact hnewline (hline.subset (by simp))
    rw [List.cons_append, List.cons_append, layouts, hnone]
    exact ih (fun hinside => h (hinside.trans (List.suffix_cons c cs).isInfix)) rest

/-- A line without the bracket of a layout qualifier has none. -/
theorem line_of_notMem (h : '(' ∉ cs) : HasLayouts (cs ++ ['\n']) [] := by
  have hbracket : '(' ∈ setWords := by decide
  exact line fun hinside => h (hinside.subset hbracket)

/-- A layout qualifier stands in front of what is no digit. -/
theorem qualifier_append {group slot : Nat} {c : Char} (hc : ¬ c.isDigit)
    (h : HasLayouts (c :: cs) places) :
    HasLayouts (qualifier group slot ++ c :: cs) ((group, slot) :: places) := by
  intro rest
  have hlayout := isLayout_qualifier group slot
  have hread : readLayout? (qualifier group slot ++ (c :: cs ++ rest)) = some (group, slot) := by
    refine readLayout?_eq_some_iff.2 ⟨_, c :: cs ++ rest, rfl, hlayout, ?_⟩
    rintro d ⟨⟩
    exact hc
  -- no other layout qualifier begins in this one
  obtain ⟨more, hmore, hletters⟩ := hlayout.exists_cons
  have hplain : HasLayouts more [] := of_notMem (mt (hletters 'l') (by decide))
  rw [hmore, List.cons_append] at hread
  rw [hmore, List.append_assoc, List.cons_append, layouts, hread, hplain, List.nil_append, h]
  rfl

/-- The layout qualifiers in front of a brace. -/
theorem brace (cs : List Char) : HasLayouts (cs ++ [' ', '\x7b']) (layouts cs) := by
  intro rest
  rw [List.append_assoc]
  show layouts (cs ++ ' ' :: '\x7b' :: rest) = _
  induction cs with
  | nil => exact (of_notMem (by decide) : HasLayouts [' ', '\x7b'] []) rest
  | cons c cs ih =>
    rw [List.cons_append, layouts, ← List.cons_append, readLayout?_append_brace, ih, layouts,
      List.append_assoc]

end HasLayouts

end ShaderInterface.Text
