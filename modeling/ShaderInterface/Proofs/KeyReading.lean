import Mathlib.Algebra.Group.Nat.Defs
import ShaderInterface.Link.Key
import ShaderInterface.Proofs.LinkReads
import Std.Data.String.ToNat

/-!
# Reading keys back from their bytes

The bytes of a key tell all that is in it: `Code.Readable` says of a code that a value can be read
off the front of any bytes that begin with its code. Main statement: `LinkKey.readable_bytes`, by
which this is so of the keys of requests, though nothing in the bytes counts the uniforms: the
sources that stand before them do. It holds of keys all of whose sizes fit into a word
(`LinkKey.Sized`).
-/

namespace ShaderInterface

namespace Code

variable {α : Type} {P : α → Prop}

/-- Of two values of `P`, each is known from any bytes that begin with its code, and so is where
its code ends. -/
def Readable (P : α → Prop) (code : α → List UInt8) : Prop :=
  ∀ ⦃a b : α⦄, P a → P b → ∀ ⦃x y : List UInt8⦄, code a ++ x = code b ++ y → a = b ∧ x = y

/-- What a code begins with is the code of no other value. -/
theorem Readable.eq_of_isPrefix {code : α → List UInt8} (hcode : Readable P code) {a b : α}
    (ha : P a) (hb : P b) (h : code a <+: code b) : a = b := by
  obtain ⟨x, hx⟩ := h
  rw [← List.append_nil (code b)] at hx
  exact (hcode ha hb hx).1

/-- The lowest bytes of a number tell the number, if it has no more bytes. -/
theorem eq_of_lowBytes_eq {count m n : Nat} (hm : m < 256 ^ count) (hn : n < 256 ^ count)
    (h : lowBytes count m = lowBytes count n) : m = n := by
  induction count generalizing m n with
  | zero => omega
  | succ count ih =>
    rw [lowBytes, lowBytes, List.cons.injEq] at h
    have hlow : m % 256 = n % 256 := congrArg UInt8.toNat h.1
    have hhigh : m / 256 = n / 256 :=
      ih (by rw [Nat.pow_succ] at hm; omega) (by rw [Nat.pow_succ] at hn; omega) h.2
    omega

/-- A word is read back, as a number that fits into it. -/
theorem readable_word : Readable (· < wordLimit) word := by
  intro m n hm hn x y h
  obtain ⟨hw, hxy⟩ := List.append_inj h (by rw [length_word, length_word])
  exact ⟨eq_of_lowBytes_eq hm hn hw, hxy⟩

/-- A text is read back from its size and its bytes. -/
theorem readable_text : Readable (·.utf8ByteSize < wordLimit) text := by
  intro s t hs ht x y h
  rw [text, text, List.append_assoc, List.append_assoc] at h
  obtain ⟨hsize, hrest⟩ := readable_word hs ht h
  obtain ⟨hutf8, hxy⟩ := List.append_inj hrest (by rw [length_utf8, length_utf8, hsize])
  exact ⟨utf8_inj.1 hutf8, hxy⟩

/-- Elements in a row are read back if it is known how many there are. -/
theorem Readable.flatMap {code : α → List UInt8} (hcode : Readable P code) {as bs : List α}
    (has : ∀ a ∈ as, P a) (hbs : ∀ b ∈ bs, P b) (hlength : as.length = bs.length)
    {x y : List UInt8} (h : as.flatMap code ++ x = bs.flatMap code ++ y) : as = bs ∧ x = y := by
  induction as generalizing bs with
  | nil =>
    obtain rfl := List.length_eq_zero_iff.1 hlength.symm
    exact ⟨rfl, h⟩
  | cons a as ih =>
    obtain ⟨b, bs, rfl⟩ := List.exists_cons_of_length_eq_add_one hlength.symm
    rw [List.flatMap_cons, List.flatMap_cons, List.append_assoc, List.append_assoc] at h
    rw [List.forall_mem_cons] at has hbs
    obtain ⟨rfl, hrest⟩ := hcode has.1 hbs.1 h
    obtain ⟨rfl, hxy⟩ := ih has.2 hbs.2 (Nat.succ.inj hlength) hrest
    exact ⟨rfl, hxy⟩

/-- A list is read back from its length and its elements. -/
theorem Readable.list {code : α → List UInt8} (hcode : Readable P code) :
    Readable (fun xs : List α => xs.length < wordLimit ∧ ∀ x ∈ xs, P x) (list code) := by
  intro as bs has hbs x y h
  rw [Code.list, Code.list, List.append_assoc, List.append_assoc] at h
  obtain ⟨hlength, hrest⟩ := readable_word has.1 hbs.1 h
  exact hcode.flatMap has.2 hbs.2 hlength hrest

end Code

/-- Different semantics are written differently. -/
theorem Semantic.name_inj {s t : Semantic} : s.name = t.name ↔ s = t := by
  refine ⟨fun h => ?_, congrArg _⟩
  rw [← String.toList_inj] at h
  -- The first two letters tell the semantics with an index from all others.
  cases s <;> cases t <;> simp_all [name, String.toList_append]
  all_goals exact Nat.repr_inj.1 (congrArg String.ofList h)

/-- Different element types have different bytes. -/
theorem ElementType.code_toUInt8_inj {t u : ElementType} (h : t.code.toUInt8 = u.code.toUInt8) :
    t = u := by
  cases t <;> cases u <;> first | rfl | exact absurd h (by decide)

namespace LinkKey

open Code

/-- A format is read back from its tag and what follows it. -/
theorem readable_formatCode : Readable (fun _ => True) formatCode := by
  rintro (_ | ⟨t, m⟩) (_ | ⟨u, n⟩) - - x y h
  · exact ⟨rfl, List.append_cancel_left h⟩
  · simp [formatCode] at h
  · simp [formatCode] at h
  · simp only [formatCode, List.cons_append, List.nil_append, List.cons.injEq, true_and] at h
    obtain ⟨htype, hnormalized, hxy⟩ := h
    obtain rfl := ElementType.code_toUInt8_inj htype
    have hmn : m = n := by
      cases m <;> cases n <;> first | rfl | exact absurd hnormalized (by decide)
    exact ⟨by rw [hmn], hxy⟩

/-- An attribute's name and the written form of its semantic have sizes that fit into a word. -/
def AttributeSized (a : String × Semantic × Option ElementFormat) : Prop :=
  a.1.utf8ByteSize < wordLimit ∧ a.2.1.name.utf8ByteSize < wordLimit

/-- An attribute is read back from its name, its semantic and its format. -/
theorem readable_attributeCode : Readable AttributeSized attributeCode := by
  rintro ⟨name, s, f⟩ ⟨name', s', f'⟩ ha hb x y h
  simp only [attributeCode, List.append_assoc] at h
  obtain ⟨hname, h⟩ := readable_text ha.1 hb.1 h
  obtain ⟨hsemantic, h⟩ := readable_text ha.2 hb.2 h
  obtain ⟨hformat, hxy⟩ := readable_formatCode trivial trivial h
  obtain rfl : name = name' := hname
  obtain rfl := Semantic.name_inj.1 hsemantic
  exact ⟨by rw [hformat], hxy⟩

/-- The sizes of a key that are written in its bytes fit into a word. -/
structure Sized (key : LinkKey) : Prop where
  vertex : key.vertex.utf8ByteSize < wordLimit
  fragment : key.fragment.utf8ByteSize < wordLimit
  attributes : key.attributes.length < wordLimit ∧ ∀ a ∈ key.attributes, AttributeSized a
  scopeCodes : key.scopeCodes.length < wordLimit
    ∧ ∀ code ∈ key.scopeCodes, code.utf8ByteSize < wordLimit
  /-- No scope has the number that says that there is none. -/
  providers : ∀ p ∈ key.providers, ∀ i ∈ p.2, i < wordLimit - 1

/-- The number of a scope and the number that says that there is none fit into a word. -/
theorem getD_lt_wordLimit {i : Option Nat} (hi : ∀ k ∈ i, k < wordLimit - 1) :
    i.getD (wordLimit - 1) < wordLimit := by
  cases i with
  | none => decide
  | some k => exact Nat.lt_of_lt_pred (hi k rfl)

/-- The number that says that there is no scope is not that of a scope. -/
theorem eq_of_getD_eq {i j : Option Nat} (hi : ∀ k ∈ i, k < wordLimit - 1)
    (hj : ∀ k ∈ j, k < wordLimit - 1) (h : i.getD (wordLimit - 1) = j.getD (wordLimit - 1)) :
    i = j := by
  cases i with
  | none =>
    cases j with
    | none => rfl
    | some k => exact absurd h.symm (Nat.ne_of_lt (hj k rfl))
  | some k =>
    cases j with
    | none => exact absurd h (Nat.ne_of_lt (hi k rfl))
    | some l => exact congrArg some h

/-- The providers of given uniforms are read back. The names are known beforehand, so they need
not be read. -/
theorem eq_of_flatMap_providerCode_append_eq {ps qs : List (String × Option Nat)}
    (hps : ∀ p ∈ ps, ∀ i ∈ p.2, i < wordLimit - 1) (hqs : ∀ q ∈ qs, ∀ i ∈ q.2, i < wordLimit - 1)
    (hnames : ps.map (·.1) = qs.map (·.1)) {x y : List UInt8}
    (h : ps.flatMap providerCode ++ x = qs.flatMap providerCode ++ y) : ps = qs ∧ x = y := by
  induction ps generalizing qs with
  | nil =>
    obtain rfl := List.map_eq_nil_iff.1 hnames.symm
    exact ⟨rfl, h⟩
  | cons p ps ih =>
    obtain ⟨q, qs, rfl⟩ := List.exists_cons_of_ne_nil (l := qs) (by rintro rfl; simp at hnames)
    obtain ⟨name, i⟩ := p
    obtain ⟨name', j⟩ := q
    rw [List.map_cons, List.map_cons, List.cons.injEq] at hnames
    obtain ⟨rfl, hnames⟩ : name = name' ∧ _ := hnames
    rw [List.forall_mem_cons] at hps hqs
    simp only [List.flatMap_cons, providerCode, List.append_assoc, List.append_cancel_left_eq] at h
    obtain ⟨hword, hrest⟩ :=
      readable_word (getD_lt_wordLimit hps.1) (getD_lt_wordLimit hqs.1) h
    obtain rfl : i = j := eq_of_getD_eq hps.1 hqs.1 hword
    obtain ⟨rfl, hxy⟩ := ih hps.2 hqs.2 hnames hrest
    exact ⟨rfl, hxy⟩

/-- A key is read off the front of bytes, if keys that hold the same sources and as many scopes
speak of the same uniforms. -/
theorem eq_of_bytes_append_eq {key other : LinkKey} (hkey : key.Sized) (hother : other.Sized)
    (hnames : key.vertex = other.vertex → key.fragment = other.fragment →
      key.scopeCodes.length = other.scopeCodes.length →
      key.providers.map (·.1) = other.providers.map (·.1)) {x y : List UInt8}
    (h : key.bytes ++ x = other.bytes ++ y) : key = other ∧ x = y := by
  simp only [bytes, List.append_assoc] at h
  obtain ⟨hvertex, h⟩ := readable_text hkey.vertex hother.vertex h
  obtain ⟨hfragment, h⟩ := readable_text hkey.fragment hother.fragment h
  obtain ⟨hattributes, h⟩ := readable_attributeCode.list hkey.attributes hother.attributes h
  obtain ⟨hcodes, h⟩ := readable_text.list hkey.scopeCodes hother.scopeCodes h
  -- the sources and scopes are the same by now, and so are the uniforms spoken of
  obtain ⟨hproviders, hxy⟩ :=
    eq_of_flatMap_providerCode_append_eq hkey.providers hother.providers
      (hnames hvertex hfragment (congrArg List.length hcodes)) h
  refine ⟨?_, hxy⟩
  cases key
  cases other
  simp_all

end LinkKey

/-! ## Keys of requests -/

/-- The sizes of a request fit into a word, as those of all that a machine with addresses of 64
bits can hold. -/
structure LinkRequest.Sized (request : LinkRequest) : Prop where
  vertex : request.vertex.utf8ByteSize < Code.wordLimit
  fragment : request.fragment.utf8ByteSize < Code.wordLimit
  semantics : request.semantics.toList.length < Code.wordLimit
    ∧ ∀ a ∈ request.semantics.toList,
      a.1.utf8ByteSize < Code.wordLimit ∧ a.2.name.utf8ByteSize < Code.wordLimit
  scopes : request.scopes.length < Code.wordLimit
    ∧ ∀ scope ∈ request.scopes, scope.code.utf8ByteSize < Code.wordLimit

namespace LinkKey

/-- The providers are those of the declared uniforms; without scopes the sources are not read. -/
theorem providersOf_eq (request : LinkRequest) :
    providersOf request =
      if request.scopes.isEmpty then .ok []
      else (Linker.uniformsOf request.vertex request.fragment).map
        (·.map fun u => (u.name, Scope.provider? request.scopes u)) := by
  unfold providersOf Linker.uniformsOf
  split
  · rfl
  cases Source.Stripped.ofSource .vertex request.vertex with
  | error cause => rfl
  | ok vertex =>
    cases Source.Stripped.ofSource .fragment request.fragment with
    | error cause => rfl
    | ok fragment =>
      dsimp only [bind, Except.bind, pure, Except.pure]
      cases Linker.uniforms vertex.payloads fragment.payloads with
      | error cause => rfl
      | ok us => rfl

/-- A request has a key if its providers are known, and the key holds what the request holds. -/
theorem ofRequest_eq_ok_iff {request : LinkRequest} {key : LinkKey} :
    ofRequest request = .ok key ↔
      ∃ providers, providersOf request = .ok providers ∧ key =
        { vertex := request.vertex
          fragment := request.fragment
          attributes := request.semantics.toList.map fun (name, s) => (name, s, request.formats s)
          scopeCodes := request.scopes.map (·.code)
          providers } := by
  unfold ofRequest
  cases providersOf request with
  | error cause => simp [bind, Except.bind]
  | ok providers => simp [bind, Except.bind, pure, Except.pure, eq_comm]

/-- The scope that provides a uniform is one of the given ones. -/
theorem provider?_lt {scopes : List Scope} {u : Uniform} {i : Nat}
    (h : Scope.provider? scopes u = some i) : i < scopes.length := by
  obtain ⟨hi, -⟩ := List.findIdx?_eq_some_iff_getElem.1 h
  exact hi

/-- The key of a request has the sizes of the request. -/
theorem sized_of_ofRequest {request : LinkRequest} {key : LinkKey} (hsized : request.Sized)
    (h : ofRequest request = .ok key) : key.Sized := by
  obtain ⟨providers, hproviders, rfl⟩ := ofRequest_eq_ok_iff.1 h
  refine ⟨hsized.vertex, hsized.fragment, ⟨?_, ?_⟩, ⟨?_, ?_⟩, ?_⟩
  · simpa using hsized.semantics.1
  · intro a ha
    obtain ⟨b, hb, rfl⟩ := List.mem_map.1 ha
    exact hsized.semantics.2 b hb
  · simpa using hsized.scopes.1
  · simpa using hsized.scopes.2
  · rw [providersOf_eq] at hproviders
    split at hproviders
    · cases hproviders
      simp
    · obtain ⟨us, -, rfl⟩ := Outcome.map_eq_ok_iff.1 hproviders
      intro p hp i hi
      obtain ⟨u, -, rfl⟩ := List.mem_map.1 hp
      have := provider?_lt hi
      have := hsized.scopes.1
      omega

/-- Which uniforms the providers belong to depends on the sources, and on whether there are
scopes. -/
theorem names_of_providersOf {request : LinkRequest} {ps : List (String × Option Nat)}
    (h : providersOf request = .ok ps) :
    (if request.scopes.length = 0 then .ok []
      else (Linker.uniformsOf request.vertex request.fragment).map (·.map (·.name)))
        = Except.ok (ps.map (·.1)) := by
  rw [providersOf_eq] at h
  -- the condition is put as one on the number of scopes, which the bytes of a key tell
  simp only [List.isEmpty_iff, ← List.length_eq_zero_iff] at h
  split at h
  · next hnone =>
    cases h
    rw [if_pos hnone]
    rfl
  · next hsome =>
    obtain ⟨us, hus, rfl⟩ := Outcome.map_eq_ok_iff.1 h
    rw [if_neg hsome, hus, List.map_map]
    rfl

/-- The key is that of a request whose sizes fit into a word. -/
def OfSized (key : LinkKey) : Prop :=
  ∃ request : LinkRequest, request.Sized ∧ ofRequest request = .ok key

/-- The keys of requests are read off the front of any bytes that begin with theirs. -/
theorem readable_bytes : Code.Readable OfSized bytes := by
  rintro key key' ⟨request, hrequest, hkey⟩ ⟨other, hother, hkey'⟩ x y h
  refine eq_of_bytes_append_eq (sized_of_ofRequest hrequest hkey) (sized_of_ofRequest hother hkey')
    ?_ h
  -- the sources and the number of scopes tell the uniforms
  obtain ⟨ps, hps, rfl⟩ := ofRequest_eq_ok_iff.1 hkey
  obtain ⟨qs, hqs, rfl⟩ := ofRequest_eq_ok_iff.1 hkey'
  intro hvertex hfragment hscopes
  dsimp only at hvertex hfragment hscopes
  rw [List.length_map, List.length_map] at hscopes
  have hnames := names_of_providersOf hps
  rw [hvertex, hfragment, hscopes, names_of_providersOf hqs] at hnames
  exact (Except.ok.inj hnames).symm

end LinkKey

end ShaderInterface
