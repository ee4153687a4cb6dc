import Crosswalk.Proofs.Signature.Descent

/-!
# Scanning signatures

The scanner has no calls to return from. It keeps in its state what surrounds the part that it is
in, and goes on from there when the part ends. It takes every text apart as the routines do
(`Descent.pieces_eq_iff`), which is proved routine by routine: from the state in which a routine
would be called, the scanner comes to the state in which its caller would go on (`Descent.Follows`).

A routine asks for the name of a class before it comes to the classes inside that one. So a text is
mapped by the new names of the classes that `names` lists and by no others (`map_congr`).
-/

namespace Crosswalk.Signature

namespace Descent

variable {part : Part} {text name behind rest : List Char} {ps qs : List Piece} {ok : Bool}

/-! ## The scanner does the same -/

/-- Where the scanner goes on when a routine has ended. -/
def left (around : Context) : Bool → State
  | true => .behind around
  | false => if around.inParameters then .body else .broken

/-- From the state, the text is taken for a type. -/
def Enters (s : State) (around : Context) (text : List Char) : Prop :=
  finish s = [] ∧ ∀ c ∈ text.head?, step s c = (.inType around c, [.verbatim c])

variable {s : State} {around : Context}

/-- This is so where a type is expected anyway. -/
theorem enters_type (around : Context) (text : List Char) : Enters (.type around) around text :=
  ⟨rfl, fun _ _ => rfl⟩

/-- No type begins with another character. -/
theorem type?_eq_none {c : Char} (h : opensType c = false) : State.type? around c = none := by
  simp only [opensType, Bool.or_eq_false_iff, decide_eq_false_iff_not] at h
  simp [State.type?, h]

/-- Behind a part that is broken the scanner goes on as it does with a character that makes no sense
in it. -/
theorem emitted_left_false (around : Context) (c : Char) (text : List Char) :
    scanner.emitted (left around false) (c :: text) =
      .verbatim c :: scanner.emitted (.failed around c) text := by
  rw [Transducer.emitted_cons, left, State.failed]
  split <;> rfl

/-- No name is left open where a routine ends. -/
theorem emitted_left_nil (around : Context) (ok : Bool) :
    scanner.emitted (left around ok) [] = [] := by
  rw [Transducer.emitted_nil]
  cases ok with
  | true =>
    rw [left, State.behind]
    split
    · rfl
    · split <;> rfl
  | false =>
    rw [left]
    split <;> rfl

/-- The first character of what is taken for a type comes out as it is. -/
theorem emitted_enters {c : Char} (h : Enters s around (c :: text)) :
    scanner.emitted s (c :: text) =
      .verbatim c :: scanner.emitted (.inType around c) text := by
  have hstep : scanner.step s c = (.inType around c, [.verbatim c]) := h.2 c rfl
  rw [Transducer.emitted_cons, hstep]
  rfl

/-- The name of a class is complete where its letters end. -/
theorem emitted_className (h : identifier isEnd text = (name, behind)) :
    scanner.emitted (.className "" around) text =
      .outer (String.ofList name) ::
        scanner.emitted (.afterClass (String.ofList name) around) behind := by
  obtain ⟨rfl, hname, hend⟩ := of_identifier h
  have hstep : ∀ name c, isEnd c = false →
      step (.className name around) c = (.className (name.push c) around, []) := by
    intro name c hc
    simp [step, hc]
  rw [emitted_letters hstep "" (fun c hc => by simpa [isEnd, and_assoc] using hname c hc),
    String.empty_append]
  cases behind with
  | nil => rfl
  | cons c rest => simp [scanner, step, hend c rfl]

/-- So is the simple name of a class inside another one. -/
theorem emitted_simpleName {outside : String} (h : identifier isEnd text = (name, behind)) :
    scanner.emitted (.simpleName outside "" around) text =
      .inner outside (String.ofList name) ::
        scanner.emitted (.afterClass (Nested.join outside (String.ofList name)) around) behind := by
  obtain ⟨rfl, hname, hend⟩ := of_identifier h
  have hstep : ∀ name c, isEnd c = false →
      step (.simpleName outside name around) c =
      (.simpleName outside (name.push c) around, []) := by
    intro name c hc
    simp [step, hc]
  rw [emitted_letters hstep "" (fun c hc => by simpa [isEnd, and_assoc] using hname c hc),
    String.empty_append]
  cases behind with
  | nil => rfl
  | cons c rest => simp [scanner, step, hend c rfl]

/-- The name of a type variable comes out as it is. -/
theorem emitted_variable (h : ∀ c ∈ name, decide (c = ';') = false) (rest : List Char) :
    scanner.emitted (.variable around) (name ++ rest) =
      name.map .verbatim ++ scanner.emitted (.variable around) rest := by
  refine emitted_copied (fun c hc => ?_) rest
  simp [step, of_decide_eq_false (h c hc)]

/-- A type variable comes out as it is, up to the end of its name. -/
theorem emitted_typeVariable (hs : Enters s around ('T' :: text))
    (h : identifier (· = ';') text = (name, behind)) :
    scanner.emitted s ('T' :: text) =
      .verbatim 'T' :: (name.map .verbatim ++ scanner.emitted (.variable around) behind) := by
  obtain ⟨rfl, hletters, -⟩ := of_identifier h
  rw [emitted_enters hs]
  show _ :: scanner.emitted (.variable around) _ = _
  rw [emitted_variable hletters]

/-- The scanner takes a text apart as the routine does, from the states in which the routine would
be called, and goes on with the rest. -/
def Follows : Part → List Char → List Piece → Bool → List Char → Prop
  | .type, text, ps, ok, rest => ∀ s around, Enters s around text →
    scanner.emitted s text = ps ++ scanner.emitted (left around ok) rest
  | .suffix name, text, ps, ok, rest => ∀ around,
    scanner.emitted (.afterClass name around) text = ps ++ scanner.emitted (left around ok) rest
  | .arguments, text, ps, ok, rest => ∀ name around,
    scanner.emitted (.arguments name around) text =
      ps ++ scanner.emitted (if ok then .afterClass name around else left around false) rest

/-- What surrounds a type argument of a class. -/
def enclosed (name : String) (around : Context) : Context :=
  { around with classes := name :: around.classes }

/-- The argument of a class is a type inside that class. -/
theorem enters_arguments {c : Char} (hc : c ∉ ['>', '*', '+', '-']) (name : String)
    (around : Context) (text : List Char) :
    Enters (.arguments name around) (enclosed name around) (c :: text) := by
  simp only [List.mem_cons, List.not_mem_nil, or_false, not_or] at hc
  refine ⟨rfl, fun d hd => ?_⟩
  cases hd
  simp [step, State.inArguments, hc, enclosed]

/-- Behind a sign there has to be a type. -/
theorem emitted_sign {sign : Char} (hsign : sign = '+' ∨ sign = '-') (name : String)
    (around : Context) (text : List Char) :
    scanner.emitted (.arguments name around) (sign :: text) =
      .verbatim sign :: scanner.emitted (.type (enclosed name around)) text := by
  rcases hsign with rfl | rfl <;> exact Transducer.emitted_cons ..

/-- The scanner does what the routines for types do. -/
theorem Reads.follows (h : Reads part text ps ok rest) : Follows part text ps ok rest := by
  induction h with
  | primitive hc =>
    intro s around hs
    rw [emitted_enters hs]
    simp [State.inType, State.type?, hc, left]
  | array h ih =>
    intro s around hs
    rw [emitted_enters hs]
    exact congrArg _ (ih (.type around) around (enters_type around _))
  | typeVariable hname =>
    intro s around hs
    rw [emitted_typeVariable hs hname, Transducer.emitted_cons, List.map_append, List.cons_append,
      List.append_assoc]
    rfl
  | openVariable hname =>
    intro s around hs
    rw [emitted_typeVariable hs hname, emitted_left_nil]
    rfl
  | object hname h ih =>
    intro s around hs
    rw [emitted_enters hs]
    show _ :: scanner.emitted (.className "" around) _ = _
    rw [emitted_className hname, ih around]
    rfl
  | @noType text h =>
    intro s around hs
    cases text with
    | nil =>
      rw [emitted_left_nil, Transducer.emitted_nil]
      exact hs.1
    | cons c text =>
      rw [emitted_enters hs, emitted_left_false, State.inType, type?_eq_none (h c rfl)]
      rfl
  | within h hrest ih ih' =>
    intro around
    rw [Transducer.emitted_cons]
    show _ :: scanner.emitted (.arguments _ around) _ = _
    rw [ih _ around, if_pos rfl, ih' around, List.cons_append, List.append_assoc]
  | brokenWithin h ih =>
    intro around
    rw [Transducer.emitted_cons]
    exact congrArg _ (ih _ around)
  | inside hsimple h ih =>
    intro around
    rw [Transducer.emitted_cons]
    show _ :: scanner.emitted (.simpleName _ "" around) _ = _
    rw [emitted_simpleName hsimple, ih around]
    rfl
  | closed =>
    intro around
    exact Transducer.emitted_cons ..
  | @noSuffix name text h =>
    intro around
    cases text with
    | nil =>
      rw [emitted_left_nil]
      rfl
    | cons c text =>
      have hc := h c rfl
      simp only [isEnd, Bool.or_eq_false_iff, decide_eq_false_iff_not] at hc
      rw [emitted_left_false, Transducer.emitted_cons]
      simp [scanner, step, State.inClass, hc]
  | noMore =>
    intro name around
    exact Transducer.emitted_cons ..
  | any h ih =>
    intro name around
    rw [Transducer.emitted_cons]
    exact congrArg _ (ih name around)
  | signed hsign h hrest ih ih' =>
    intro name around
    rw [emitted_sign hsign, ih _ _ (enters_type (enclosed name around) _)]
    show _ :: (_ ++ scanner.emitted (.arguments name around) _) = _
    rw [ih' name around, List.cons_append, List.append_assoc]
  | brokenSigned hsign h ih =>
    intro name around
    rw [emitted_sign hsign, ih _ _ (enters_type (enclosed name around) _)]
    rfl
  | argument hc h hrest ih ih' =>
    intro name around
    rw [ih _ _ (enters_arguments hc name around _)]
    show _ ++ scanner.emitted (.arguments name around) _ = _
    rw [ih' name around, List.append_assoc]
  | brokenArgument hc h ih =>
    intro name around
    exact ih _ (enclosed name around) (enters_arguments hc name around _)
  | openArguments =>
    intro name around
    rw [if_neg (by decide), emitted_left_nil]
    rfl

/-- It does what the routine for type parameters does. -/
theorem emitted_parameters (h : ReadsParameters text ps rest) :
    scanner.emitted .parameters text = ps ++ scanner.emitted .body rest := by
  -- Behind a colon, a type belongs to a bound, unless there is none.
  have hcolon : ∀ text, scanner.emitted .parameters (':' :: text) =
      .verbatim ':' :: scanner.emitted .colon text := fun text => Transducer.emitted_cons ..
  have hbound : ∀ text : List Char, (∀ c ∈ text.head?, c ≠ ':' ∧ c ≠ '>') →
      Enters .colon ⟨true, []⟩ text := by
    intro text hopen
    refine ⟨rfl, fun c hc => ?_⟩
    simp [step, hopen c hc]
  induction h with
  | closed => exact Transducer.emitted_cons ..
  | @noBound c text rest ps hc h ih =>
    rw [hcolon, List.cons_append, ← ih, Transducer.emitted_cons, Transducer.emitted_cons]
    rcases hc with rfl | rfl <;> rfl
  | bound hopen h hrest ih =>
    rw [hcolon, h.follows _ _ (hbound _ hopen)]
    show _ :: (_ ++ scanner.emitted .parameters _) = _
    rw [ih, List.cons_append, List.append_assoc]
  | brokenBound hopen h =>
    rw [hcolon, h.follows _ _ (hbound _ hopen)]
    rfl
  | name hc hname h ih =>
    obtain ⟨htext, hletters, -⟩ := of_identifier hname
    have hsteps : ∀ d ∈ _, step .parameters d = (.parameters, [.verbatim d]) := fun d hd => by
      have hd := hletters d hd
      simp only [Bool.or_eq_false_iff, decide_eq_false_iff_not] at hd
      simp [step, State.inParameters, hd]
    rw [htext, emitted_copied hsteps, ih, List.append_assoc]
  | ended => rfl

/-- It goes on behind a type as they do, and copies what is left. -/
theorem emitted_body (h : ReadsBody text ps) : scanner.emitted .body text = ps := by
  have hbody : ∀ (c : Char) (text : List Char), c ∉ ['(', ')', '^', 'V'] →
      Enters .body ⟨false, []⟩ (c :: text) := by
    intro c text hc
    simp only [List.mem_cons, List.not_mem_nil, or_false, not_or] at hc
    refine ⟨rfl, fun d hd => ?_⟩
    cases hd
    simp [step, State.inBody, State.inType, State.failed, hc]
  induction h with
  | nil => rfl
  | @mark c text ps hc h ih =>
    have hmark : State.inBody c = .body := by
      rw [State.inBody, if_pos (by simpa [or_assoc] using hc)]
    rw [Transducer.emitted_cons]
    show _ :: scanner.emitted (.inBody c) text = _
    rw [hmark, ih]
  | type hc h hrest ih =>
    rw [h.follows _ _ (hbody _ _ hc)]
    exact congrArg _ ih
  | @broken c text rest ps hc h =>
    rw [h.follows _ _ (hbody _ _ hc)]
    have hcopied : scanner.emitted .broken (rest ++ []) = _ :=
      emitted_copied (fun _ _ => rfl) []
    rw [List.append_nil, Transducer.emitted_nil] at hcopied
    exact congrArg _ (hcopied.trans (List.append_nil _))

/-- It makes of a signature what they make of it. -/
theorem emitted_signature (h : ReadsSignature text ps) : scanner.emitted .start text = ps := by
  cases h with
  | generic h hbody =>
    rw [Transducer.emitted_cons]
    show _ :: scanner.emitted .parameters _ = _
    rw [emitted_parameters h, emitted_body hbody]
  | plain h hbody =>
    rw [← emitted_body hbody]
    cases text with
    | nil => rfl
    | cons c text =>
      have hc : c ≠ '<' := by simpa using h
      simp [scanner, step, hc]

/-- A text is taken apart as the routines do it. -/
theorem pieces_eq_iff {signature : String} :
    pieces signature = ps ↔ ReadsSignature signature.toList ps := by
  constructor
  · rintro rfl
    obtain ⟨ps, h⟩ := exists_readsSignature signature.toList
    rwa [pieces, emitted_signature h]
  · exact emitted_signature

/-! ## What is asked for -/

/-- The class in front of a dot is known, or it has been asked for by then. -/
inductive Prepared : List String → List Piece → Prop
  | nil {known : List String} : Prepared known []
  | verbatim {known : List String} {ps : List Piece} (c : Char) (h : Prepared known ps) :
    Prepared known (.verbatim c :: ps)
  | outer {known : List String} {ps : List Piece} (name : String)
      (h : Prepared (name :: known) ps) :
    Prepared known (.outer name :: ps)
  | inner {known : List String} {ps : List Piece} {outside : String} (simple : String)
    (hmem : outside ∈ known) (h : Prepared (Nested.join outside simple :: known) ps) :
    Prepared known (.inner outside simple :: ps)

/-- It does no harm to know more. -/
theorem Prepared.mono {known known' : List String} (h : Prepared known ps) (hle : known ⊆ known') :
    Prepared known' ps := by
  induction h generalizing known' with
  | nil => exact .nil
  | verbatim c h ih => exact .verbatim c (ih hle)
  | outer name h ih => exact .outer name (ih (List.cons_subset_cons name hle))
  | inner simple hmem h ih => exact .inner simple (hle hmem) (ih (List.cons_subset_cons _ hle))

theorem Prepared.append {known : List String} (h : Prepared known ps) (hqs : Prepared known qs) :
    Prepared known (ps ++ qs) := by
  induction h with
  | nil => exact hqs
  | verbatim c h ih => exact .verbatim c (ih hqs)
  | outer name h ih => exact .outer name (ih (hqs.mono (List.subset_cons_self _ _)))
  | inner simple hmem h ih =>
    exact .inner simple hmem (ih (hqs.mono (List.subset_cons_self _ _)))

/-- What is copied has no classes. -/
theorem prepared_copied (known : List String) (text : List Char) :
    Prepared known (text.map .verbatim) := by
  induction text with
  | nil => exact .nil
  | cons c text ih => exact ih.verbatim c

/-- The class that a routine reads the suffix of has been asked for. -/
def Part.known : Part → List String
  | suffix name => [name]
  | type | arguments => []

/-- A routine for types asks for a class before those inside it. -/
theorem Reads.prepared (h : Reads part text ps ok rest) : Prepared part.known ps := by
  induction h with
  | primitive hc => exact .verbatim _ .nil
  | array h ih => exact .verbatim _ ih
  | typeVariable hname | openVariable hname => exact .verbatim _ (prepared_copied _ _)
  | object hname h ih => exact .verbatim _ (.outer _ ih)
  | noType h | noSuffix h | openArguments => exact .nil
  | within h hrest ih ih' => exact .verbatim _ ((ih.mono (List.nil_subset _)).append ih')
  | brokenWithin h ih => exact .verbatim _ (ih.mono (List.nil_subset _))
  | inside hsimple h ih =>
    refine .verbatim _ (.inner _ (List.mem_singleton_self _) (ih.mono ?_))
    exact List.cons_subset_cons _ (List.nil_subset _)
  | closed | noMore => exact .verbatim _ .nil
  | any h ih => exact .verbatim _ ih
  | signed hsign h hrest ih ih' => exact .verbatim _ (ih.append ih')
  | brokenSigned hsign h ih => exact .verbatim _ ih
  | argument hc h hrest ih ih' => exact ih.append ih'
  | brokenArgument hc h ih => exact ih

/-- Type parameters are prepared from nothing. -/
theorem prepared_parameters (h : ReadsParameters text ps rest) : Prepared [] ps := by
  induction h with
  | closed => exact .verbatim _ .nil
  | noBound hc h ih => exact .verbatim _ ih
  | bound hopen h hrest ih => exact .verbatim _ (h.prepared.append ih)
  | brokenBound hopen h => exact .verbatim _ h.prepared
  | name hc hname h ih => exact (prepared_copied _ _).append ih
  | ended => exact .nil

theorem prepared_body (h : ReadsBody text ps) : Prepared [] ps := by
  induction h with
  | nil => exact .nil
  | mark hc h ih => exact .verbatim _ ih
  | type hc h hrest ih => exact h.prepared.append ih
  | broken hc h => exact h.prepared.append (prepared_copied _ _)

theorem prepared_signature (h : ReadsSignature text ps) : Prepared [] ps := by
  cases h with
  | generic h hbody => exact .verbatim _ ((prepared_parameters h).append (prepared_body hbody))
  | plain h hbody => exact prepared_body hbody

/-- Pieces come out alike under names that agree on what is known and on what the pieces ask for. -/
theorem map_render_congr {known : List String} {f g : String → String} (hps : Prepared known ps)
    (hknown : ∀ name ∈ known, f name = g name)
    (h : ∀ name ∈ ps.filterMap Piece.name?, f name = g name) :
    ps.map (Piece.render f) = ps.map (Piece.render g) := by
  induction hps with
  | nil => rfl
  | verbatim c _ ih =>
    rw [List.map_cons, List.map_cons, ih hknown h]
    rfl
  | outer name _ ih =>
    have hasked := List.forall_mem_cons.1 h
    rw [List.map_cons, List.map_cons, ih (List.forall_mem_cons.2 ⟨hasked.1, hknown⟩) hasked.2]
    simp only [Piece.render, hasked.1]
  | inner simple hmem _ ih =>
    have hasked := List.forall_mem_cons.1 h
    rw [List.map_cons, List.map_cons, ih (List.forall_mem_cons.2 ⟨hasked.1, hknown⟩) hasked.2]
    simp only [Piece.render, simpleName, hknown _ hmem, hasked.1]

end Descent

/-- A signature is mapped by the new names of the classes that it asks for, and by no others. -/
theorem map_congr {f g : String → String} {signature : String}
    (h : ∀ name ∈ names signature, f name = g name) : map f signature = map g signature := by
  have hreads : Descent.ReadsSignature signature.toList (pieces signature) :=
    Descent.pieces_eq_iff.1 rfl
  have hprepared := Descent.prepared_signature hreads
  rw [map, map, Descent.map_render_congr hprepared (by simp) h]

end Crosswalk.Signature
