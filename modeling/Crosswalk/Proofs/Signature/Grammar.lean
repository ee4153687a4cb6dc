import Crosswalk.Proofs.Names.Nesting

/-!
# The grammar of signatures

A signature is that of a field, a class or a method. `Tree.tokens` writes it down as a list of names
and of the characters between them, and `Tree.rename` gives its classes other binary names. Every
other token stays as it is then (`Tree.tokens_rename`).

The grammar asks more of its names than that they fit where they stand (`Token.Fits`): no name is
empty, and no name holds any of the characters `.;[/<>:`, but for the slashes behind packages.
-/

namespace Crosswalk.Signature

/-! ## Trees -/

/-- The primitive types. -/
inductive Primitive
  | byte | char | double | float | int | long | short | boolean
  deriving DecidableEq, Repr

/-- The letter of a primitive type. -/
def Primitive.letter : Primitive → Char
  | byte => 'B'
  | char => 'C'
  | double => 'D'
  | float => 'F'
  | int => 'I'
  | long => 'J'
  | short => 'S'
  | boolean => 'Z'

/-- Which types a type argument stands for: one, the ones below it or the ones above it. -/
inductive Wildcard
  | exactly | below | above
  deriving DecidableEq, Repr

mutual

/-- The type of a value. -/
inductive ValueType
  | primitive (p : Primitive)
  | reference (r : ReferenceType)

/-- The type of a reference. -/
inductive ReferenceType
  | object (c : ClassType)
  | typeVariable (name : String)
  | array (component : ValueType)

/-- A class with its type arguments, or one inside another that may have got arguments itself. -/
inductive ClassType
  /-- The name has the package in front. -/
  | outermost (name : String) (arguments : Arguments)
  | inner (around : ClassType) (simple : String) (arguments : Arguments)

/-- The type arguments of a class in order. -/
inductive Arguments
  | none
  | any (rest : Arguments)
  | bounded (wildcard : Wildcard) (type : ReferenceType) (rest : Arguments)

end

/-- A type parameter with its bounds. -/
structure Parameter where
  name : String
  classBound : Option ReferenceType
  interfaceBounds : List ReferenceType

/-- A signature. -/
inductive Tree
  | ofField (type : ReferenceType)
  | ofClass (parameters : List Parameter) (superclass : ClassType) (interfaces : List ClassType)
  /-- A method without a result gives none. -/
  | ofMethod (parameters : List Parameter) (arguments : List ValueType) (result : Option ValueType)
    (thrown : List ReferenceType)

/-- The name of a class in the class files, where dollar signs stand for dots. -/
def ClassType.binaryName : ClassType → String
  | .outermost name _ => name
  | .inner around simple _ => Nested.join around.binaryName simple

/-! ## Tokens -/

/-- A part of a signature as it is written. -/
inductive Token
  | char (c : Char)
  /-- The name of a class that is not inside another one. -/
  | outermost (name : String)
  /-- The simple name of a class, with the binary name of the class around it. -/
  | inner (outside simple : String)
  | typeVariable (name : String)
  | parameter (name : String)
  deriving DecidableEq, Repr

/-- How a token is written. -/
def Token.letters : Token → List Char
  | char c => [c]
  | outermost name | inner _ name | typeVariable name | parameter name => name.toList

/-- The binary name of the class that a token is about, if it is about one. -/
def Token.binaryName? : Token → Option String
  | outermost name => some name
  | inner outside simple => some (Nested.join outside simple)
  | char _ | typeVariable _ | parameter _ => none

/-- The name holds none of the characters that stand behind names of classes. -/
def Plain (name : String) : Prop :=
  ∀ c ∈ name.toList, c ∉ ['<', '.', ';']

instance (name : String) : Decidable (Plain name) :=
  List.decidableBAll _ _

/-- A name holds none of the characters that end it where it stands. -/
def Token.Fits : Token → Prop
  | char _ => True
  | outermost name | inner _ name => Plain name
  | typeVariable name => ';' ∉ name.toList
  | parameter name => ':' ∉ name.toList ∧ '>' ∉ name.toList

instance (t : Token) : Decidable t.Fits :=
  match t with
  | .char _ => inferInstanceAs (Decidable True)
  | .outermost name | .inner _ name => inferInstanceAs (Decidable (Plain name))
  | .typeVariable name => inferInstanceAs (Decidable (';' ∉ name.toList))
  | .parameter name => inferInstanceAs (Decidable (':' ∉ name.toList ∧ '>' ∉ name.toList))

/-- The sign in front of a type argument. -/
def Wildcard.tokens : Wildcard → List Token
  | exactly => []
  | below => [.char '+']
  | above => [.char '-']

/-- Type arguments, if there are any, from what stands between the brackets around them. -/
def Arguments.enclose : Arguments → List Token → List Token
  | .none, _ => []
  | .any _, items | .bounded _ _ _, items => .char '<' :: (items ++ [.char '>'])

mutual

/-- How a type is written. -/
def ValueType.tokens : ValueType → List Token
  | .primitive p => [.char p.letter]
  | .reference r => r.tokens

/-- How the type of a reference is written. -/
def ReferenceType.tokens : ReferenceType → List Token
  | .object c => .char 'L' :: (c.tokens ++ [.char ';'])
  | .typeVariable name => [.char 'T', .typeVariable name, .char ';']
  | .array component => .char '[' :: component.tokens

/-- How a class is written, up to the semicolon. -/
def ClassType.tokens : ClassType → List Token
  | .outermost name arguments => .outermost name :: arguments.enclose arguments.items
  | .inner around simple arguments =>
    around.tokens ++
      (.char '.' :: .inner around.binaryName simple :: arguments.enclose arguments.items)

/-- How type arguments are written one after the other. -/
def Arguments.items : Arguments → List Token
  | .none => []
  | .any rest => .char '*' :: rest.items
  | .bounded wildcard type rest => wildcard.tokens ++ (type.tokens ++ rest.items)

end

/-- How the bounds of a type parameter are written. One that is a class may be left out. -/
def Parameter.bounds (p : Parameter) : List Token :=
  .char ':' :: (p.classBound.toList.flatMap ReferenceType.tokens ++
    p.interfaceBounds.flatMap fun bound => .char ':' :: bound.tokens)

/-- How a type parameter is written. -/
def Parameter.tokens (p : Parameter) : List Token :=
  .parameter p.name :: p.bounds

/-- How type parameters are written, if there are any. -/
def Parameter.enclose (parameters : List Parameter) : List Token :=
  if parameters.isEmpty then [] else .char '<' :: (parameters.flatMap tokens ++ [.char '>'])

/-- How a signature is written. -/
def Tree.tokens : Tree → List Token
  | ofField type => type.tokens
  | ofClass parameters superclass interfaces =>
    Parameter.enclose parameters ++
      (superclass :: interfaces).flatMap fun c => (ReferenceType.object c).tokens
  | ofMethod parameters arguments result thrown =>
    Parameter.enclose parameters ++
      (.char '(' :: (arguments.flatMap ValueType.tokens ++
        (.char ')' :: (result.elim [.char 'V'] ValueType.tokens ++
          thrown.flatMap fun type => .char '^' :: type.tokens))))

/-- The text of a signature. -/
def Tree.spell (s : Tree) : String :=
  String.ofList (s.tokens.flatMap Token.letters)

/-- The binary names in a signature, in order. -/
def Tree.names (s : Tree) : List String :=
  s.tokens.filterMap Token.binaryName?

/-- A type parameter has got a bound. -/
def Parameter.Bounded (p : Parameter) : Prop :=
  p.classBound.isSome ∨ p.interfaceBounds ≠ []

/-- The type parameters of a signature. -/
def Tree.parameters : Tree → List Parameter
  | ofField _ => []
  | ofClass parameters _ _ | ofMethod parameters _ _ _ => parameters

/-! ## Other names -/

/-- What a name has in addition to that of the class around it and a dollar sign. -/
def simplePart (outside name : String) : String :=
  String.ofList (name.toList.drop (Nested.join outside "").toList.length)

/-- The new simple name of a class inside another one. -/
def innerName (f : String → String) (outside simple : String) : String :=
  simplePart (f outside) (f (Nested.join outside simple))

mutual

/-- A type with other names for its classes. -/
def ValueType.rename (f : String → String) : ValueType → ValueType
  | .primitive p => .primitive p
  | .reference r => .reference (r.rename f)

/-- The type of a reference with other names for its classes. -/
def ReferenceType.rename (f : String → String) : ReferenceType → ReferenceType
  | .object c => .object (c.rename f)
  | .typeVariable name => .typeVariable name
  | .array component => .array (component.rename f)

/-- A class type with other names for its classes. -/
def ClassType.rename (f : String → String) : ClassType → ClassType
  | .outermost name arguments => .outermost (f name) (arguments.rename f)
  | .inner around simple arguments =>
    .inner (around.rename f) (innerName f around.binaryName simple) (arguments.rename f)

/-- Type arguments with other names for their classes. -/
def Arguments.rename (f : String → String) : Arguments → Arguments
  | .none => .none
  | .any rest => .any (rest.rename f)
  | .bounded wildcard type rest => .bounded wildcard (type.rename f) (rest.rename f)

end

/-- A type parameter with other names for the classes in its bounds. -/
def Parameter.rename (f : String → String) (p : Parameter) : Parameter :=
  ⟨p.name, p.classBound.map (ReferenceType.rename f),
    p.interfaceBounds.map (ReferenceType.rename f)⟩

/-- A signature with other names for its classes. -/
def Tree.rename (f : String → String) : Tree → Tree
  | ofField type => .ofField (type.rename f)
  | ofClass parameters superclass interfaces =>
    .ofClass (parameters.map (Parameter.rename f)) (superclass.rename f)
      (interfaces.map (ClassType.rename f))
  | ofMethod parameters arguments result thrown =>
    .ofMethod (parameters.map (Parameter.rename f)) (arguments.map (ValueType.rename f))
      (result.map (ValueType.rename f)) (thrown.map (ReferenceType.rename f))

/-- A token with another name, if it is about a class. -/
def Token.rename (f : String → String) : Token → Token
  | outermost name => .outermost (f name)
  | inner outside simple => .inner (f outside) (innerName f outside simple)
  | t => t

/-- A class inside another one stays inside it: its new name starts with the new name of the other
class and a dollar sign. -/
def Token.Keeps (f : String → String) : Token → Prop
  | inner outside simple =>
    (Nested.join (f outside) "").toList <+: (f (Nested.join outside simple)).toList
  | _ => True

instance (f : String → String) (t : Token) : Decidable (t.Keeps f) :=
  match t with
  | .inner outside simple => inferInstanceAs (Decidable
      ((Nested.join (f outside) "").toList <+: (f (Nested.join outside simple)).toList))
  | .char _ | .outermost _ | .typeVariable _ | .parameter _ => inferInstanceAs (Decidable True)

/-! ## The tokens of a renamed signature -/

variable {f : String → String}

/-- The new name of a class that stays inside another one is made of the new name of that one and
the new simple name. -/
theorem join_innerName {outside simple : String} (h : (Token.inner outside simple).Keeps f) :
    Nested.join (f outside) (innerName f outside simple) = f (Nested.join outside simple) := by
  obtain ⟨rest, hrest⟩ := h
  rw [innerName, simplePart, ← hrest, List.drop_left, ← String.toList_inj, ← hrest]
  simp

/-- A token that keeps its nesting changes its binary name as asked. -/
theorem Token.binaryName?_rename {t : Token} (h : t.Keeps f) :
    (t.rename f).binaryName? = t.binaryName?.map f := by
  cases t with
  | inner outside simple => exact congrArg some (join_innerName h)
  | _ => rfl

/-- The new binary name of a class is the one that is given to the old one. -/
theorem ClassType.binaryName_rename (c : ClassType) (h : ∀ t ∈ c.tokens, t.Keeps f) :
    (c.rename f).binaryName = f c.binaryName := by
  match c with
  | .outermost name arguments => rfl
  | .inner around simple arguments =>
    simp only [tokens, List.forall_mem_append, List.forall_mem_cons] at h
    obtain ⟨haround, -, hinner, -⟩ := h
    rw [ClassType.rename, binaryName, binaryName_rename around haround, join_innerName hinner]
    rfl

/-- The arguments are among the tokens around them. -/
theorem Arguments.items_subset (a : Arguments) : a.items ⊆ a.enclose a.items := by
  cases a with
  | none => exact List.Subset.refl _
  | _ => exact fun t ht => List.mem_cons_of_mem _ (List.mem_append_left _ ht)

/-- The brackets of arguments stay. -/
theorem Arguments.enclose_rename (a : Arguments) (items : List Token) :
    (a.rename f).enclose (items.map (Token.rename f)) = (a.enclose items).map (Token.rename f) := by
  cases a <;> simp [Arguments.rename, enclose, Token.rename]

/-- The letters of wildcards stay. -/
theorem Wildcard.tokens_map_rename (w : Wildcard) : w.tokens.map (Token.rename f) = w.tokens := by
  cases w <;> rfl

mutual

/-- The tokens of a value type change one by one. -/
theorem ValueType.tokens_rename (t : ValueType) (h : ∀ x ∈ t.tokens, x.Keeps f) :
    (t.rename f).tokens = t.tokens.map (Token.rename f) := by
  match t with
  | .primitive p => rfl
  | .reference r => exact ReferenceType.tokens_rename r h

theorem ReferenceType.tokens_rename (t : ReferenceType) (h : ∀ x ∈ t.tokens, x.Keeps f) :
    (t.rename f).tokens = t.tokens.map (Token.rename f) := by
  match t with
  | .object c =>
    rw [ReferenceType.tokens, List.forall_mem_cons, List.forall_mem_append] at h
    simp [ReferenceType.rename, ReferenceType.tokens, ClassType.tokens_rename c h.2.1, Token.rename]
  | .typeVariable name => rfl
  | .array component =>
    rw [ReferenceType.tokens, List.forall_mem_cons] at h
    simp [ReferenceType.rename, ReferenceType.tokens, ValueType.tokens_rename component h.2,
      Token.rename]

theorem ClassType.tokens_rename (c : ClassType) (h : ∀ x ∈ c.tokens, x.Keeps f) :
    (c.rename f).tokens = c.tokens.map (Token.rename f) := by
  match c with
  | .outermost name arguments =>
    rw [ClassType.tokens, List.forall_mem_cons] at h
    have hitems := Arguments.items_rename arguments fun x hx => h.2 x (arguments.items_subset hx)
    rw [ClassType.rename, ClassType.tokens, hitems, Arguments.enclose_rename]
    rfl
  | .inner around simple arguments =>
    rw [ClassType.tokens, List.forall_mem_append, List.forall_mem_cons, List.forall_mem_cons] at h
    have hitems := Arguments.items_rename arguments fun x hx =>
      h.2.2.2 x (arguments.items_subset hx)
    rw [ClassType.rename, ClassType.tokens, hitems, Arguments.enclose_rename,
      ClassType.tokens_rename around h.1, ClassType.binaryName_rename around h.1,
      ClassType.tokens, List.map_append]
    rfl

theorem Arguments.items_rename (a : Arguments) (h : ∀ x ∈ a.items, x.Keeps f) :
    (a.rename f).items = a.items.map (Token.rename f) := by
  match a with
  | .none => rfl
  | .any rest =>
    rw [Arguments.items, List.forall_mem_cons] at h
    rw [Arguments.rename, Arguments.items, Arguments.items_rename rest h.2]
    rfl
  | .bounded wildcard type rest =>
    rw [Arguments.items, List.forall_mem_append, List.forall_mem_append] at h
    rw [Arguments.rename, Arguments.items, ReferenceType.tokens_rename type h.2.1,
      Arguments.items_rename rest h.2.2, Arguments.items, List.map_append, List.map_append,
      Wildcard.tokens_map_rename]

end

/-- A character in front of a type stays. -/
theorem ReferenceType.cons_tokens_rename (c : Char) (t : ReferenceType)
    (h : ∀ x ∈ .char c :: t.tokens, x.Keeps f) :
    .char c :: (t.rename f).tokens = (.char c :: t.tokens).map (Token.rename f) := by
  rw [List.map_cons, tokens_rename t (List.forall_mem_cons.1 h).2]
  rfl

/-- Parts are renamed one by one. -/
theorem flatMap_tokens_rename {α : Type} {tokens : α → List Token} {rename : α → α}
    (hrename : ∀ a, (∀ x ∈ tokens a, x.Keeps f) →
      tokens (rename a) = (tokens a).map (Token.rename f))
    {parts : List α} (h : ∀ x ∈ parts.flatMap tokens, x.Keeps f) :
    (parts.map rename).flatMap tokens = (parts.flatMap tokens).map (Token.rename f) := by
  rw [List.flatMap_map, List.map_flatMap]
  refine List.flatMap_congr fun a ha => hrename a fun x hx => h x ?_
  exact List.mem_flatMap_of_mem ha hx

theorem Parameter.tokens_rename (p : Parameter) (h : ∀ x ∈ p.tokens, x.Keeps f) :
    (p.rename f).tokens = p.tokens.map (Token.rename f) := by
  rw [tokens, bounds, List.forall_mem_cons, List.forall_mem_cons, List.forall_mem_append] at h
  obtain ⟨-, -, hclass, hinterfaces⟩ := h
  rw [tokens, tokens, bounds, bounds, List.map_cons, List.map_cons, List.map_append,
    ← flatMap_tokens_rename ReferenceType.tokens_rename hclass, ← Option.toList_map,
    ← flatMap_tokens_rename (ReferenceType.cons_tokens_rename ':') hinterfaces]
  rfl

/-- The tokens of all type parameters change one by one, and their brackets stay. -/
theorem Parameter.enclose_rename (parameters : List Parameter)
    (h : ∀ x ∈ enclose parameters, x.Keeps f) :
    enclose (parameters.map (rename f)) = (enclose parameters).map (Token.rename f) := by
  cases parameters with
  | nil => rfl
  | cons p parameters =>
    have hparameters : ∀ x ∈ (p :: parameters).flatMap tokens, x.Keeps f :=
      fun x hx => h x (List.mem_cons_of_mem _ (List.mem_append_left _ hx))
    have hrename := flatMap_tokens_rename tokens_rename hparameters
    simp only [enclose, List.map_cons, List.isEmpty_cons, Bool.false_eq_true, if_false,
      List.map_append, List.map_nil] at hrename ⊢
    rw [hrename]
    rfl

/-- A renamed signature has got the same tokens otherwise. -/
theorem Tree.tokens_rename (s : Tree) (h : ∀ x ∈ s.tokens, x.Keeps f) :
    (s.rename f).tokens = s.tokens.map (Token.rename f) := by
  cases s with
  | ofField type => exact ReferenceType.tokens_rename type h
  | ofClass parameters superclass interfaces =>
    rw [tokens, List.forall_mem_append] at h
    have hclasses := flatMap_tokens_rename
      (fun c => ReferenceType.tokens_rename (.object c)) h.2
    rw [rename, tokens, tokens, List.map_append, Parameter.enclose_rename parameters h.1]
    exact congrArg _ hclasses
  | ofMethod parameters arguments result thrown =>
    rw [tokens, List.forall_mem_append, List.forall_mem_cons, List.forall_mem_append,
      List.forall_mem_cons, List.forall_mem_append] at h
    obtain ⟨hparameters, -, harguments, -, hresult, hthrown⟩ := h
    have hresult : (result.map (ValueType.rename f)).elim [.char 'V'] ValueType.tokens =
        (result.elim [.char 'V'] ValueType.tokens).map (Token.rename f) := by
      cases result with
      | none => rfl
      | some type => exact ValueType.tokens_rename type hresult
    rw [rename, tokens, tokens, List.map_append, List.map_cons, List.map_append, List.map_cons,
      List.map_append, Parameter.enclose_rename parameters hparameters,
      flatMap_tokens_rename ValueType.tokens_rename harguments, hresult,
      flatMap_tokens_rename (ReferenceType.cons_tokens_rename '^') hthrown]
    rfl

/-- The names of a renamed signature are the new names. -/
theorem Tree.names_rename (s : Tree) (h : ∀ x ∈ s.tokens, x.Keeps f) :
    (s.rename f).names = s.names.map f := by
  rw [names, s.tokens_rename h, names, List.filterMap_map, List.map_filterMap]
  exact List.filterMap_congr fun x hx => Token.binaryName?_rename (h x hx)

end Crosswalk.Signature
