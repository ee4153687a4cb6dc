import Crosswalk.Names.Signature
import Crosswalk.Proofs.Signature.Grammar

/-!
# Signatures with other names

Reading the tokens of a tree takes the reader from a state in which the tree may stand to the state
behind it, whatever text follows, and each token comes out as pieces of its own (`Passes`). A class
name is complete at the character behind it only, so there the text that follows has to begin with
one that ends names (`EndsName`). A type parameter without bounds has to be the last one, since what
stands behind its colon is read as a bound.

The names in the pieces are replaced one by one, and that is all that changes (`map_spell`).
-/

namespace Crosswalk.Signature

/-- The pieces that a token is read as. -/
def Token.pieces : Token → List Piece
  | char c => [.verbatim c]
  | outermost name => [.outer name]
  | inner outside simple => [.inner outside simple]
  | typeVariable name | parameter name => name.toList.map .verbatim

/-- From one state, tokens with the text behind them are read as their pieces, and the text is read
from the other state. -/
def Passes (s : State) (tokens : List Token) (s' : State) (rest : List Char) : Prop :=
  scanner.emitted s (tokens.flatMap Token.letters ++ rest) =
    tokens.flatMap Token.pieces ++ scanner.emitted s' rest

variable {s s' s'' : State} {tokens more : List Token} {around : Context} {rest : List Char}

/-! ## Token by token -/

theorem Passes.nil : Passes s [] s rest := rfl

theorem Passes.append (h : Passes s tokens s' (more.flatMap Token.letters ++ rest))
    (hmore : Passes s' more s'' rest) : Passes s (tokens ++ more) s'' rest := by
  rw [Passes] at h hmore ⊢
  rw [List.flatMap_append, List.flatMap_append, List.append_assoc, h, hmore, List.append_assoc]

/-- A letter that is copied is passed. -/
theorem passes_char {c : Char} (h : step s c = (s', [.verbatim c])) :
    Passes s [.char c] s' rest := by
  have hstep : scanner.step s c = (s', [.verbatim c]) := h
  simp [Passes, Token.letters, Token.pieces, hstep]

theorem Passes.cons {c : Char} (h : step s c = (s', [.verbatim c]))
    (htokens : Passes s' tokens s'' rest) : Passes s (.char c :: tokens) s'' rest :=
  (passes_char h).append htokens

/-- Parts that lead from a state to itself one by one do so together. -/
theorem passes_flatMap {α : Type} {tokens : α → List Token} {parts : List α}
    (h : ∀ a ∈ parts, ∀ rest, Passes s (tokens a) s rest) :
    Passes s (parts.flatMap tokens) s rest := by
  induction parts with
  | nil => exact .nil
  | cons a parts ih =>
    rw [List.forall_mem_cons] at h
    exact (h.1 _).append (ih h.2)

/-! ## Names -/

/-- A state in which some characters are copied copies a name made of them. -/
theorem emitted_copied {text : List Char} (h : ∀ c ∈ text, step s c = (s, [.verbatim c]))
    (rest : List Char) :
    scanner.emitted s (text ++ rest) = text.map .verbatim ++ scanner.emitted s rest := by
  induction text with
  | nil => rfl
  | cons c text ih =>
    rw [List.forall_mem_cons] at h
    have hstep : scanner.step s c = (s, [.verbatim c]) := h.1
    rw [List.cons_append, Transducer.emitted_cons, hstep, ih h.2]
    rfl

/-- The name of a type variable is passed up to its end. -/
theorem passes_typeVariable {name : String} (h : (Token.typeVariable name).Fits) :
    Passes (.variable around) [.typeVariable name] (.variable around) rest := by
  have hsteps : ∀ c ∈ name.toList,
      step (.variable around) c = (.variable around, [.verbatim c]) := by
    intro c hc
    have hne : c ≠ ';' := fun hend => h (hend ▸ hc)
    simp [step, hne]
  simpa [Passes, Token.letters, Token.pieces] using emitted_copied hsteps rest

theorem passes_parameterName {name : String} (h : (Token.parameter name).Fits) :
    Passes .parameters [.parameter name] .parameters rest := by
  have hsteps : ∀ c ∈ name.toList, step .parameters c = (.parameters, [.verbatim c]) := by
    intro c hc
    have hcolon : c ≠ ':' := fun hend => h.1 (hend ▸ hc)
    have hclose : c ≠ '>' := fun hend => h.2 (hend ▸ hc)
    simp [step, State.inParameters, hcolon, hclose]
  simpa [Passes, Token.letters, Token.pieces] using emitted_copied hsteps rest

/-- The letters of a name are kept. -/
theorem emitted_letters {state : String → State}
    (hstep : ∀ name c, isEnd c = false → step (state name) c = (state (name.push c), []))
    (name : String) {text : List Char} (htext : ∀ c ∈ text, c ∉ ['<', '.', ';'])
    (rest : List Char) :
    scanner.emitted (state name) (text ++ rest) =
      scanner.emitted (state (name ++ String.ofList text)) rest := by
  induction text generalizing name with
  | nil => simp
  | cons c text ih =>
    rw [List.forall_mem_cons] at htext
    have hend : isEnd c = false := by simpa [isEnd, and_assoc] using htext.1
    have hpush : scanner.step (state name) c = (state (name.push c), []) := hstep name c hend
    rw [List.cons_append, Transducer.emitted_cons, hpush, List.nil_append, ih _ htext.2,
      String.ofList_cons, ← String.append_singleton, String.append_assoc]

/-- The text begins with a character that ends names. -/
def EndsName (text : List Char) : Prop :=
  ∃ c ∈ text.head?, isEnd c = true

theorem passes_outermost {name : String} (h : (Token.outermost name).Fits) (hrest : EndsName rest) :
    Passes (.className "" around) [.outermost name] (.afterClass name around) rest := by
  obtain ⟨c, hc, hend⟩ := hrest
  obtain ⟨rest, rfl⟩ := List.head?_eq_some_iff.1 hc
  have hstep : ∀ name c, isEnd c = false →
      step (.className name around) c = (.className (name.push c) around, []) := by
    intro name c hc
    simp [step, hc]
  have hletters := emitted_letters hstep "" h (c :: rest)
  simpa [Passes, Token.letters, Token.pieces, scanner, step, hend] using hletters

/-- The name of a nested class is passed, and asked for with its outer one. -/
theorem passes_inner {outside simple : String} (h : (Token.inner outside simple).Fits)
    (hrest : EndsName rest) :
    Passes (.simpleName outside "" around) [.inner outside simple]
      (.afterClass (Nested.join outside simple) around) rest := by
  obtain ⟨c, hc, hend⟩ := hrest
  obtain ⟨rest, rfl⟩ := List.head?_eq_some_iff.1 hc
  have hstep : ∀ name c, isEnd c = false →
      step (.simpleName outside name around) c =
      (.simpleName outside (name.push c) around, []) := by
    intro name c hc
    simp [step, hc]
  have hletters := emitted_letters hstep "" h (c :: rest)
  simpa [Passes, Token.letters, Token.pieces, scanner, step, hend] using hletters

/-! ## Types -/

/-- A type may begin in the state. -/
def State.Expects (s : State) (around : Context) : Prop :=
  ∀ c next, State.type? around c = some next → step s c = (next, [.verbatim c])

/-- No type begins with any of the other characters that stand between names. -/
theorem ne_of_type?_eq_some {c : Char} {next : State} (h : State.type? around c = some next) :
    c ≠ '(' ∧ c ≠ ')' ∧ c ≠ '^' ∧ c ≠ 'V' ∧ c ≠ '<' ∧ c ≠ '>' ∧ c ≠ ':' ∧ c ≠ '*' ∧ c ≠ '+' ∧
      c ≠ '-' := by
  have hnone : ∀ c ∈ ['(', ')', '^', 'V', '<', '>', ':', '*', '+', '-'],
      State.type? around c = none := by
    simp [State.type?, isPrimitive]
  have hc : c ∉ ['(', ')', '^', 'V', '<', '>', ':', '*', '+', '-'] := by
    intro hc
    rw [hnone c hc] at h
    cases h
  simpa using hc

/-- Where a type is to come, a type is expected. -/
theorem expects_type : (State.type around).Expects around := by
  intro c next h
  simp [step, State.inType, h]

theorem expects_body : State.body.Expects ⟨false, []⟩ := by
  intro c next h
  simp [step, State.inBody, h, ne_of_type?_eq_some h]

theorem expects_start : State.start.Expects ⟨false, []⟩ := by
  intro c next h
  simp [step, State.inBody, h, ne_of_type?_eq_some h]

/-- Behind the colon of a bound a type is expected. -/
theorem expects_colon : State.colon.Expects ⟨true, []⟩ := by
  intro c next h
  simp [step, State.inType, h, ne_of_type?_eq_some h]

theorem expects_arguments {name : String} :
    (State.arguments name around).Expects { around with classes := name :: around.classes } := by
  intro c next h
  simp [step, State.inArguments, State.inType, h, ne_of_type?_eq_some h]

/-- A primitive is a type of one letter. -/
theorem type?_letter (p : Primitive) : State.type? around p.letter = some (.behind around) := by
  cases p <;> rfl

/-- Behind the sign of a type argument comes the type. -/
theorem exists_passes_wildcard (w : Wildcard) (name : String) :
    ∃ s, Passes (.arguments name around) w.tokens s rest ∧
      s.Expects { around with classes := name :: around.classes } := by
  cases w with
  | exactly => exact ⟨_, .nil, expects_arguments⟩
  | below => exact ⟨_, passes_char rfl, expects_type⟩
  | above => exact ⟨_, passes_char rfl, expects_type⟩

/-- Behind a class come its type arguments, if there are any. -/
theorem passes_enclose {a : Arguments} {name : String}
    (h : ∀ rest, Passes (.arguments name around) a.items (.arguments name around) rest) :
    Passes (.afterClass name around) (a.enclose a.items) (.afterClass name around) rest := by
  cases a with
  | none => exact .nil
  | _ => exact .cons rfl ((h _).append (passes_char rfl))

/-- Type arguments and the brackets around them come behind a whole name. -/
theorem endsName_enclose (a : Arguments) (items : List Token) (hrest : EndsName rest) :
    EndsName ((a.enclose items).flatMap Token.letters ++ rest) := by
  cases a with
  | none => exact hrest
  | _ => exact ⟨'<', rfl, rfl⟩

mutual

/-- A value type is passed where a type is expected. -/
theorem passes_valueType (t : ValueType) (h : ∀ x ∈ t.tokens, x.Fits) {s : State}
    {around : Context} (hs : s.Expects around) (rest : List Char) :
    Passes s t.tokens (.behind around) rest := by
  match t with
  | .primitive p => exact passes_char (hs _ _ (type?_letter p))
  | .reference r => exact passes_referenceType r h hs rest

theorem passes_referenceType (t : ReferenceType) (h : ∀ x ∈ t.tokens, x.Fits) {s : State}
    {around : Context} (hs : s.Expects around) (rest : List Char) :
    Passes s t.tokens (.behind around) rest := by
  match t with
  | .object c =>
    rw [ReferenceType.tokens, List.forall_mem_cons, List.forall_mem_append] at h
    have hclass := passes_classType c h.2.1 around
    -- The semicolon is a character behind which the class can be told to be complete.
    exact .cons (hs 'L' _ rfl) ((hclass _ ⟨';', rfl, rfl⟩).append (passes_char rfl))
  | .typeVariable name =>
    rw [ReferenceType.tokens, List.forall_mem_cons, List.forall_mem_cons] at h
    exact .cons (hs 'T' _ rfl) ((passes_typeVariable h.2.1).append (passes_char rfl))
  | .array component =>
    rw [ReferenceType.tokens, List.forall_mem_cons] at h
    exact .cons (hs '[' _ rfl) (passes_valueType component h.2 expects_type rest)

/-- A class is passed up to the end of its name. -/
theorem passes_classType (c : ClassType) (h : ∀ x ∈ c.tokens, x.Fits) (around : Context)
    (rest : List Char) (hrest : EndsName rest) :
    Passes (.className "" around) c.tokens (.afterClass c.binaryName around) rest := by
  match c with
  | .outermost name arguments =>
    rw [ClassType.tokens, List.forall_mem_cons] at h
    have harguments := passes_items arguments (fun x hx => h.2 x (arguments.items_subset hx)) name
      around
    exact (passes_outermost h.1 (endsName_enclose _ _ hrest)).append (passes_enclose harguments)
  | .inner outside simple arguments =>
    rw [ClassType.tokens, List.forall_mem_append, List.forall_mem_cons, List.forall_mem_cons] at h
    have houtside := passes_classType outside h.1 around
    have harguments := passes_items arguments (fun x hx => h.2.2.2 x (arguments.items_subset hx))
      (Nested.join outside.binaryName simple) around
    -- The dot ends the class around it, and what comes next ends the simple name.
    have hinner := (passes_inner h.2.2.1 (endsName_enclose _ _ hrest)).append
      (passes_enclose harguments)
    exact (houtside _ ⟨'.', rfl, rfl⟩).append (.cons rfl hinner)

theorem passes_items (a : Arguments) (h : ∀ x ∈ a.items, x.Fits) (name : String)
    (around : Context) (rest : List Char) :
    Passes (.arguments name around) a.items (.arguments name around) rest := by
  match a with
  | .none => exact .nil
  | .any more =>
    rw [Arguments.items, List.forall_mem_cons] at h
    exact .cons rfl (passes_items more h.2 name around rest)
  | .bounded wildcard type more =>
    rw [Arguments.items, List.forall_mem_append, List.forall_mem_append] at h
    obtain ⟨s, hsign, hs⟩ := exists_passes_wildcard wildcard name
    -- Behind the type, the reader is between the arguments of the same class again.
    have htype := passes_referenceType type h.2.1 hs
    exact hsign.append ((htype _).append (passes_items more h.2.2 name around rest))

end

/-! ## Type parameters -/

/-- A bound leads to where the next parameter or bound may stand. -/
theorem passes_bound (t : ReferenceType) (h : ∀ x ∈ t.tokens, x.Fits) (rest : List Char) :
    Passes .colon t.tokens .parameters rest :=
  passes_referenceType t h expects_colon rest

/-- Interface bounds are passed one after the other. -/
theorem passes_interfaceBounds {bounds : List ReferenceType}
    (h : ∀ x ∈ bounds.flatMap fun bound => .char ':' :: bound.tokens, x.Fits) :
    Passes .parameters (bounds.flatMap fun bound => .char ':' :: bound.tokens)
    .parameters rest := by
  refine passes_flatMap fun bound hbound rest => .cons rfl (passes_bound bound ?_ rest)
  exact fun x hx => h x (List.mem_flatMap_of_mem hbound (List.mem_cons_of_mem _ hx))

/-- A type parameter without bounds ends behind its colon. -/
theorem passes_unbounded {p : Parameter} (hp : ¬p.Bounded) (h : ∀ x ∈ p.tokens, x.Fits) :
    Passes .parameters p.tokens .colon rest := by
  obtain ⟨name, classBound, interfaceBounds⟩ := p
  simp only [Parameter.Bounded, not_or, not_not, Bool.not_eq_true, Option.isSome_eq_false_iff,
    Option.isNone_iff_eq_none] at hp
  obtain ⟨rfl, rfl⟩ := hp
  exact (passes_parameterName (h _ List.mem_cons_self)).append (passes_char rfl)

/-- A type parameter with a bound is passed. -/
theorem passes_bounded {p : Parameter} (hp : p.Bounded) (h : ∀ x ∈ p.tokens, x.Fits) :
    Passes .parameters p.tokens .parameters rest := by
  rw [Parameter.tokens, Parameter.bounds, List.forall_mem_cons, List.forall_mem_cons,
    List.forall_mem_append] at h
  obtain ⟨hname, -, hclass, hinterfaces⟩ := h
  refine (passes_parameterName hname).append (.cons rfl ?_)
  obtain ⟨name, classBound, interfaceBounds⟩ := p
  cases classBound with
  | some bound =>
    simp only [Option.toList_some, List.flatMap_cons, List.flatMap_nil, List.append_nil] at hclass ⊢
    exact (passes_bound bound hclass _).append (passes_interfaceBounds hinterfaces)
  | none =>
    cases interfaceBounds with
    | nil => simp [Parameter.Bounded] at hp
    | cons bound interfaceBounds =>
      -- The colon of the first interface stands where a bound that is a class may stand.
      rw [List.flatMap_cons, List.forall_mem_append, List.forall_mem_cons] at hinterfaces
      exact .cons rfl ((passes_bound bound hinterfaces.1.2 _).append
        (passes_interfaceBounds hinterfaces.2))

/-- The state behind the type parameters. -/
def State.behindParameters (parameters : List Parameter) : State :=
  if parameters.isEmpty then .start else .body

/-- Any type parameter but the last one needs a bound. -/
theorem passes_parameters {parameters : List Parameter}
    (hbounded : ∀ p ∈ parameters.dropLast, p.Bounded)
    (h : ∀ x ∈ Parameter.enclose parameters, x.Fits) :
    Passes .start (Parameter.enclose parameters) (.behindParameters parameters) rest := by
  rcases List.eq_nil_or_concat parameters with rfl | ⟨before, last, rfl⟩
  · exact .nil
  · rw [List.concat_eq_append] at hbounded h ⊢
    rw [List.dropLast_concat] at hbounded
    have hsome : (before ++ [last]).isEmpty = false := by simp
    rw [Parameter.enclose, hsome, if_neg Bool.false_ne_true, List.forall_mem_cons,
      List.flatMap_append, List.flatMap_singleton, List.append_assoc, List.forall_mem_append,
      List.forall_mem_append] at h
    obtain ⟨-, hbefore, hlast, -⟩ := h
    have hbefore : ∀ rest, Passes .parameters (before.flatMap Parameter.tokens) .parameters rest :=
      fun rest => passes_flatMap fun p hp rest => passes_bounded (hbounded p hp) fun x hx =>
        hbefore x (List.mem_flatMap_of_mem hp hx)
    rw [Parameter.enclose, State.behindParameters, hsome, if_neg Bool.false_ne_true,
      if_neg Bool.false_ne_true, List.flatMap_append, List.flatMap_singleton, List.append_assoc]
    refine .cons rfl ((hbefore _).append ?_)
    by_cases hp : last.Bounded
    · exact (passes_bounded hp hlast).append (passes_char rfl)
    · exact (passes_unbounded hp hlast).append (passes_char rfl)

/-! ## Signatures -/

/-- Behind type parameters a type is expected. -/
theorem expects_behindParameters (parameters : List Parameter) :
    (State.behindParameters parameters).Expects ⟨false, []⟩ := by
  rw [State.behindParameters]
  split
  · exact expects_start
  · exact expects_body

/-- A method may begin there. -/
theorem step_behindParameters (parameters : List Parameter) :
    step (.behindParameters parameters) '(' = (.body, [.verbatim '(']) := by
  rw [State.behindParameters]
  split <;> rfl

/-- The tokens of a signature are read as such. -/
theorem passes_tree (s : Tree) (hfits : ∀ x ∈ s.tokens, x.Fits)
    (hbounded : ∀ p ∈ s.parameters.dropLast, p.Bounded) :
    Passes .start s.tokens .body rest := by
  -- Behind each part, the reader is where the next part may start.
  cases s with
  | ofField type => exact passes_referenceType type hfits expects_start rest
  | ofClass parameters superclass interfaces =>
    rw [Tree.tokens, List.flatMap_cons, List.forall_mem_append, List.forall_mem_append] at hfits
    obtain ⟨hparameters, hsuperclass, hinterfaces⟩ := hfits
    rw [Tree.tokens, List.flatMap_cons]
    refine (passes_parameters hbounded hparameters).append ?_
    refine (passes_referenceType (.object superclass) hsuperclass
      (expects_behindParameters parameters) _).append ?_
    refine passes_flatMap fun c hc rest => passes_referenceType (.object c) ?_ expects_body rest
    exact fun x hx => hinterfaces x (List.mem_flatMap_of_mem hc hx)
  | ofMethod parameters arguments result thrown =>
    rw [Tree.tokens, List.forall_mem_append, List.forall_mem_cons, List.forall_mem_append,
      List.forall_mem_cons, List.forall_mem_append] at hfits
    obtain ⟨hparameters, -, harguments, -, hresult, hthrown⟩ := hfits
    refine (passes_parameters hbounded hparameters).append
      (.cons (step_behindParameters parameters) ?_)
    have harguments : ∀ rest, Passes .body (arguments.flatMap ValueType.tokens) .body rest :=
      fun rest => passes_flatMap fun t ht rest => passes_valueType t
        (fun x hx => harguments x (List.mem_flatMap_of_mem ht hx)) expects_body rest
    refine (harguments _).append (.cons rfl ?_)
    have hresult : ∀ rest, Passes .body (result.elim [.char 'V'] ValueType.tokens) .body rest := by
      intro rest
      cases result with
      | none => exact passes_char rfl
      | some type => exact passes_valueType type hresult expects_body rest
    refine (hresult _).append (passes_flatMap fun t ht rest => .cons rfl ?_)
    exact passes_referenceType t
      (fun x hx => hthrown x (List.mem_flatMap_of_mem ht (List.mem_cons_of_mem _ hx)))
      expects_body rest

/-- The pieces of a signature are those of its tokens. -/
theorem pieces_spell (s : Tree) (hfits : ∀ x ∈ s.tokens, x.Fits)
    (hbounded : ∀ p ∈ s.parameters.dropLast, p.Bounded) :
    pieces s.spell = s.tokens.flatMap Token.pieces := by
  have hpasses : Passes .start s.tokens .body [] := passes_tree s hfits hbounded
  rw [Passes, List.append_nil, Transducer.emitted_nil] at hpasses
  rw [pieces, Tree.spell, String.toList_ofList, hpasses]
  exact List.append_nil _

/-! ## Putting together -/

section Rename

variable {f : String → String}

/-- The pieces that a name is copied as are put together to the name. -/
theorem join_verbatim (letters : List Char) :
    String.join ((letters.map Piece.verbatim).map (Piece.render f)) = String.ofList letters := by
  rw [← String.toList_inj, String.toList_join]
  simp [Piece.render, List.flatMap_map, List.flatMap_singleton']

/-- The pieces of a token are put together to the renamed one. -/
theorem join_pieces {t : Token} (h : t.Keeps f) :
    String.join (t.pieces.map (Piece.render f)) = String.ofList (t.rename f).letters := by
  cases t with
  | char c => exact join_verbatim [c]
  | outermost name => simp [Token.pieces, Piece.render, Token.rename, Token.letters]
  | inner outside simple =>
    have hinside : Nested.inside? (f outside) (f (Nested.join outside simple)) =
        some (innerName f outside simple) := Nested.inside?_eq_some_iff.2 (join_innerName h).symm
    simp [Token.pieces, Piece.render, Token.rename, Token.letters, simpleName, hinside]
  | typeVariable name => exact join_verbatim name.toList
  | parameter name => exact join_verbatim name.toList

/-- Rendered pieces are the letters of the changed tokens. -/
theorem join_flatMap_pieces {tokens : List Token} (h : ∀ x ∈ tokens, x.Keeps f) :
    String.join ((tokens.flatMap Token.pieces).map (Piece.render f)) =
      String.ofList ((tokens.map (Token.rename f)).flatMap Token.letters) := by
  induction tokens with
  | nil => rfl
  | cons t tokens ih =>
    rw [List.forall_mem_cons] at h
    rw [List.flatMap_cons, List.map_append, String.join_append, join_pieces h.1, ih h.2,
      List.map_cons, List.flatMap_cons, String.ofList_append]

/-- The pieces of a token ask for its name. -/
theorem names_pieces (t : Token) : t.pieces.filterMap Piece.name? = t.binaryName?.toList := by
  have hverbatim (letters : List Char) :
      (letters.map Piece.verbatim).filterMap Piece.name? = [] := by
    rw [List.filterMap_map, List.filterMap_eq_nil_iff]
    exact fun c _ => rfl
  cases t with
  | typeVariable name => exact hverbatim name.toList
  | parameter name => exact hverbatim name.toList
  | _ => rfl

/-- The names are those of the tree. -/
theorem names_spell (s : Tree) (hfits : ∀ x ∈ s.tokens, x.Fits)
    (hbounded : ∀ p ∈ s.parameters.dropLast, p.Bounded) : names s.spell = s.names := by
  rw [names, pieces_spell s hfits hbounded, List.filterMap_flatMap, Tree.names,
    List.filterMap_eq_flatMap_toList]
  exact List.flatMap_congr fun t _ => names_pieces t

/-- A new name fits where the old one stood. -/
theorem Token.fits_rename {t : Token} (hfits : t.Fits) (hkeeps : t.Keeps f)
    (hplain : ∀ name ∈ t.binaryName?, Plain (f name)) :
    (t.rename f).Fits := by
  cases t with
  | inner outside simple =>
    intro c hc
    refine hplain _ rfl c ?_
    rw [← join_innerName hkeeps, Nested.toList_join]
    exact List.mem_append_right _ (List.mem_cons_of_mem _ hc)
  | outermost name => exact hplain name rfl
  | _ => exact hfits

/-- A type parameter has its bounds under any names. -/
theorem Parameter.bounded_rename (p : Parameter) : (p.rename f).Bounded ↔ p.Bounded := by
  simp [Parameter.Bounded, Parameter.rename]

/-- Type parameters change one by one. -/
theorem Tree.parameters_rename (s : Tree) :
    (s.rename f).parameters = s.parameters.map (Parameter.rename f) := by
  cases s <;> rfl

end Rename

/-- In a signature exactly the binary names of classes are replaced. They are asked for in order,
what comes out is written as the tree with the new names is, and these are read from it again. -/
theorem map_spell (f : String → String) (s : Tree) (hfits : ∀ x ∈ s.tokens, x.Fits)
    (hbounded : ∀ p ∈ s.parameters.dropLast, p.Bounded) (hkeeps : ∀ x ∈ s.tokens, x.Keeps f)
    (hplain : ∀ name ∈ s.names, Plain (f name)) :
    map f s.spell = (s.rename f).spell ∧
      (s.rename f).tokens = s.tokens.map (Token.rename f) ∧
      names s.spell = s.names ∧ names (map f s.spell) = s.names.map f := by
  have hmap : map f s.spell = (s.rename f).spell := by
    rw [map, pieces_spell s hfits hbounded, join_flatMap_pieces hkeeps, ← s.tokens_rename hkeeps]
    rfl
  have hfits' : ∀ x ∈ (s.rename f).tokens, x.Fits := by
    rw [s.tokens_rename hkeeps, List.forall_mem_map]
    refine fun x hx => Token.fits_rename (hfits x hx) (hkeeps x hx) fun name hname => ?_
    exact hplain name (List.mem_filterMap.2 ⟨x, hx, hname⟩)
  have hbounded' : ∀ p ∈ (s.rename f).parameters.dropLast, p.Bounded := by
    rw [s.parameters_rename, ← List.map_dropLast, List.forall_mem_map]
    exact fun p hp => p.bounded_rename.2 (hbounded p hp)
  refine ⟨hmap, s.tokens_rename hkeeps, names_spell s hfits hbounded, ?_⟩
  rw [hmap, names_spell _ hfits' hbounded', s.names_rename hkeeps]

/-- A method whose type parameters are named like the letters in front of types, the first one with
an interface as its bound and the last one without any. -/
def generic : Tree :=
  .ofMethod
    [⟨"L", none, [.object (.outermost "a/C" (.bounded .exactly (.typeVariable "L") .none))]⟩,
      ⟨"T", none, []⟩]
    [.reference (.array (.reference (.object (.inner
      (.outermost "a/B" (.bounded .below (.typeVariable "L") (.any .none))) "I"
      (.bounded .above (.array (.primitive .int)) .none))))), .primitive .int]
    (some (.reference (.typeVariable "T"))) [.object (.outermost "a/E" .none)]

/-- Other names for one class and a class inside it, whose simple name gets a dollar sign. -/
def moved (name : String) : String :=
  if name = "a/B" then "n/X" else if name = "a/B$I" then "n/X$Y$Z" else name

theorem map_spell_generic :
    ((∀ x ∈ generic.tokens, x.Fits) ∧ (∀ p ∈ generic.parameters.dropLast, p.Bounded) ∧
      (∀ x ∈ generic.tokens, x.Keeps moved) ∧
      ∀ name ∈ generic.names, Plain (moved name)) ∧
    map moved "<L::La/C<TL;>;T:>([La/B<+TL;*>.I<-[I>;I)TT;^La/E;" =
      "<L::La/C<TL;>;T:>([Ln/X<+TL;*>.Y$Z<-[I>;I)TT;^La/E;" ∧
    names "<L::La/C<TL;>;T:>([La/B<+TL;*>.I<-[I>;I)TT;^La/E;" = ["a/C", "a/B", "a/B$I", "a/E"] := by
  have hfits : ∀ x ∈ generic.tokens, x.Fits := by decide +kernel
  have hbounded : ∀ p ∈ generic.parameters.dropLast, p.Bounded := by
    simp [generic, Tree.parameters, Parameter.Bounded]
  have hkeeps : ∀ x ∈ generic.tokens, x.Keeps moved := by decide +kernel
  have hplain : ∀ name ∈ generic.names, Plain (moved name) := by decide +kernel
  have hspell : generic.spell = "<L::La/C<TL;>;T:>([La/B<+TL;*>.I<-[I>;I)TT;^La/E;" := by
    decide +kernel
  obtain ⟨hmap, -, hnames, -⟩ := map_spell moved generic hfits hbounded hkeeps hplain
  rw [hspell] at hmap hnames
  refine ⟨⟨hfits, hbounded, hkeeps, hplain⟩, hmap.trans ?_, hnames.trans ?_⟩
  · decide +kernel
  · decide +kernel

end Crosswalk.Signature
