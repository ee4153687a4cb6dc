import Crosswalk.Proofs.Signature.Grammar

/-!
# The grammar of descriptors

A descriptor is that of a field or a method. `Tree.spell` writes it down and `parse?` reads it, and
the two agree on every text (`parse?_eq_some_iff`).

The grammar asks more of the name of a class than that it fits where it stands: it is not empty, and
it holds none of the characters `.;[`.
-/

namespace Crosswalk.Descriptor

open Signature (Primitive)

/-! ## Trees -/

/-- The type of a field. -/
inductive FieldType
  | primitive (p : Primitive)
  | object (name : String)
  | array (component : FieldType)
  deriving DecidableEq, Repr

/-- A descriptor. -/
inductive Tree
  | ofField (type : FieldType)
  /-- A method without a result gives none. -/
  | ofMethod (parameters : List FieldType) (result : Option FieldType)
  deriving DecidableEq, Repr

namespace FieldType

/-- How a type is written. -/
def letters : FieldType → List Char
  | primitive p => [p.letter]
  | object name => 'L' :: (name.toList ++ [';'])
  | array component => '[' :: component.letters

/-- The class in a type, if there is one. -/
def name? : FieldType → Option String
  | primitive _ => none
  | object name => some name
  | array component => component.name?

/-- A type with another name for its class. -/
def rename (f : String → String) : FieldType → FieldType
  | primitive p => .primitive p
  | object name => .object (f name)
  | array component => .array (component.rename f)

/-- The name of the class does not end before its semicolon. -/
def Fits (t : FieldType) : Prop :=
  ∀ name ∈ t.name?, ';' ∉ name.toList

end FieldType

namespace Tree

/-- The types in a descriptor, in order. -/
def types : Tree → List FieldType
  | ofField type => [type]
  | ofMethod parameters result => parameters ++ result.toList

/-- The text of a descriptor. -/
def spell : Tree → String
  | ofField type => String.ofList type.letters
  | ofMethod parameters result =>
    String.ofList ('(' :: (parameters.flatMap FieldType.letters ++
      ')' :: result.elim ['V'] FieldType.letters))

/-- The classes in a descriptor, in order. -/
def names (t : Tree) : List String :=
  t.types.filterMap FieldType.name?

/-- A descriptor with other names for its classes. -/
def rename (f : String → String) : Tree → Tree
  | ofField type => .ofField (type.rename f)
  | ofMethod parameters result =>
    .ofMethod (parameters.map (FieldType.rename f)) (result.map (FieldType.rename f))

/-- No name ends before its semicolon. -/
def Fits (t : Tree) : Prop :=
  ∀ type ∈ t.types, type.Fits

end Tree

/-! ## Reading -/

/-- The primitive type of a letter. -/
def primitive? (c : Char) : Option Primitive :=
  [.byte, .char, .double, .float, .int, .long, .short, .boolean].find? fun p => p.letter = c

namespace FieldType

/-- Reads a type from the front of a text. -/
def read? : List Char → Option (FieldType × List Char)
  | [] => none
  | c :: text =>
    if c = 'L' then
      match text.dropWhile (· ≠ ';') with
      | _ :: rest => some (.object (String.ofList (text.takeWhile (· ≠ ';'))), rest)
      | [] => none
    else if c = '[' then
      (read? text).map fun (component, rest) => (.array component, rest)
    else
      (primitive? c).map fun p => (.primitive p, text)

variable {t : FieldType} {text rest : List Char}

/-- Every primitive has one letter. -/
theorem letter_of_primitive? {c : Char} {p : Primitive} (h : primitive? c = some p) :
    p.letter = c := by
  have hfound := List.find?_some h
  simpa using hfound

/-- What is read is written in front of the rest. -/
theorem of_read?_eq_some (h : read? text = some (t, rest)) : t.Fits ∧ text = t.letters ++ rest := by
  induction text generalizing t with
  | nil => cases h
  | cons c text ih =>
    rw [read?] at h
    split at h
    · next hc =>
      subst hc
      -- The name and what is left of the text make up the text.
      have hparts := List.takeWhile_append_dropWhile (p := (· ≠ ';')) (l := text)
      split at h
      · next d behind hbehind =>
        cases h
        have hd : d = ';' := by
          have hhead := List.head?_dropWhile_not (· ≠ ';') text
          rw [hbehind] at hhead
          simpa using hhead
        rw [hbehind, hd] at hparts
        constructor
        · rintro name ⟨⟩ hmem
          rw [String.toList_ofList] at hmem
          have hletter := List.all_eq_true.1 List.all_takeWhile _ hmem
          simp at hletter
        · simpa [letters] using hparts.symm
      · cases h
    · split at h
      · next hc =>
        subst hc
        obtain ⟨⟨component, behind⟩, hread, hsame⟩ := Option.map_eq_some_iff.1 h
        cases hsame
        obtain ⟨hfits, rfl⟩ := ih hread
        exact ⟨hfits, rfl⟩
      · obtain ⟨p, hp, hsame⟩ := Option.map_eq_some_iff.1 h
        cases hsame
        rw [← letter_of_primitive? hp]
        exact ⟨fun name hname => (nomatch hname), rfl⟩

/-- What is written is read, whatever stands behind it. -/
theorem read?_letters (h : t.Fits) (rest : List Char) :
    read? (t.letters ++ rest) = some (t, rest) := by
  induction t with
  | primitive p => cases p <;> rfl
  | object name =>
    have hletters : ∀ c ∈ name.toList, decide (c ≠ ';') = true := by
      intro c hc
      refine decide_eq_true fun hend => h name rfl ?_
      rwa [← hend]
    rw [letters, List.cons_append, List.append_assoc, read?, if_pos rfl,
      List.dropWhile_append_of_pos hletters, List.takeWhile_append_of_pos hletters]
    simp
  | array component ih =>
    have hread := ih h
    rw [letters, List.cons_append, read?, if_neg (by decide), if_pos rfl, hread]
    rfl

/-- A type is read where its letters stand. -/
theorem read?_eq_some_iff : read? text = some (t, rest) ↔ t.Fits ∧ text = t.letters ++ rest := by
  refine ⟨of_read?_eq_some, ?_⟩
  rintro ⟨hfits, rfl⟩
  exact read?_letters hfits rest

/-- A type has one letter at least. -/
theorem letters_ne_nil (t : FieldType) : t.letters ≠ [] := by
  cases t <;> simp [letters]

/-- No type begins with a bracket around parameters. -/
theorem head?_letters_ne (t : FieldType) {c : Char} (hc : c = '(' ∨ c = ')') :
    t.letters.head? ≠ some c := by
  cases t with
  | primitive p => rcases hc with rfl | rfl <;> cases p <;> decide
  | object name => rcases hc with rfl | rfl <;> simp [letters]
  | array component => rcases hc with rfl | rfl <;> simp [letters]

/-- No type is written like a missing result. -/
theorem letters_ne_void (t : FieldType) : t.letters ≠ ['V'] := by
  cases t with
  | primitive p => cases p <;> decide
  | object name => simp [letters]
  | array component => simp [letters]

/-- Reading a type takes something off the text. -/
theorem length_lt_of_read? (h : read? text = some (t, rest)) : rest.length < text.length := by
  obtain ⟨-, rfl⟩ := of_read?_eq_some h
  have hpos := List.length_pos_iff.2 t.letters_ne_nil
  rw [List.length_append]
  omega

/-- Reads types up to the bracket behind the last one. -/
def readAll? (text : List Char) : Option (List FieldType × List Char) :=
  if text.head? = some ')' then some ([], text.tail)
  else
    match _read : read? text with
    | some (type, rest) => (readAll? rest).map fun (types, behind) => (type :: types, behind)
    | none => none
termination_by text.length
decreasing_by exact length_lt_of_read? _read

/-- The types of parameters are read up to the bracket. -/
theorem of_readAll?_eq_some {types : List FieldType} (h : readAll? text = some (types, rest)) :
    (∀ t ∈ types, t.Fits) ∧ text = types.flatMap letters ++ ')' :: rest := by
  fun_induction readAll? text generalizing types with
  | case1 text hclose =>
    cases h
    obtain ⟨rest, rfl⟩ := List.head?_eq_some_iff.1 hclose
    exact ⟨List.forall_mem_nil _, rfl⟩
  | case2 text hopen type behind hread ih =>
    obtain ⟨⟨more, rest'⟩, hmore, hsame⟩ := Option.map_eq_some_iff.1 h
    cases hsame
    obtain ⟨htype, rfl⟩ := of_read?_eq_some hread
    obtain ⟨hfits, rfl⟩ := ih hmore
    exact ⟨List.forall_mem_cons.2 ⟨htype, hfits⟩, by simp⟩
  | case3 text hopen hread => cases h

/-- All of them are read if each can be. -/
theorem readAll?_letters {types : List FieldType} (h : ∀ t ∈ types, t.Fits) (rest : List Char) :
    readAll? (types.flatMap letters ++ ')' :: rest) = some (types, rest) := by
  induction types with
  | nil => rw [readAll?]; rfl
  | cons t types ih =>
    rw [List.forall_mem_cons] at h
    have hread := read?_letters h.1 (types.flatMap letters ++ ')' :: rest)
    have hopen : (t.letters ++ (types.flatMap letters ++ ')' :: rest)).head? ≠ some ')' := by
      rw [List.head?_append_of_ne_nil _ t.letters_ne_nil]
      exact t.head?_letters_ne (.inr rfl)
    rw [List.flatMap_cons, List.append_assoc, readAll?, if_neg hopen]
    split
    · next type behind hread' =>
      cases hread.symm.trans hread'
      rw [ih h.2]
      rfl
    · next hnone => cases hread.symm.trans hnone

/-- So they are read just where their letters stand in front of the bracket. -/
theorem readAll?_eq_some_iff {types : List FieldType} :
    readAll? text = some (types, rest) ↔
      (∀ t ∈ types, t.Fits) ∧ text = types.flatMap letters ++ ')' :: rest := by
  refine ⟨of_readAll?_eq_some, ?_⟩
  rintro ⟨hfits, rfl⟩
  exact readAll?_letters hfits rest

/-- Reads a type that is the whole text. -/
def whole? (text : List Char) : Option FieldType :=
  match read? text with
  | some (type, []) => some type
  | _ => none

/-- A text is one type if it has its letters and no others. -/
theorem whole?_eq_some_iff : whole? text = some t ↔ t.Fits ∧ text = t.letters := by
  have hread : read? text = some (t, []) ↔ t.Fits ∧ text = t.letters ++ [] := read?_eq_some_iff
  rw [List.append_nil] at hread
  rw [← hread, whole?]
  split
  · next type h => simp [h]
  · next h =>
    refine ⟨fun hnone => (nomatch hnone), fun hsome => ?_⟩
    exact absurd hsome (h t)

/-- Reads the result of a method, which may be none. -/
def result? (text : List Char) : Option (Option FieldType) :=
  if text = ['V'] then some none else (whole? text).map some

/-- A result is a type, or none. -/
theorem result?_eq_some_iff {result : Option FieldType} :
    result? text = some result ↔
      (∀ t ∈ result, t.Fits) ∧ text = result.elim ['V'] letters := by
  rw [result?]
  cases result with
  | none =>
    split
    · next h => simp [h]
    · next h => simp [h]
  | some t =>
    split
    · next h => simp [h, t.letters_ne_void.symm]
    · simp [whole?_eq_some_iff]

end FieldType

/-- Reads a descriptor. -/
def parse? (descriptor : String) : Option Tree :=
  if descriptor.toList.head? = some '(' then do
    let (parameters, rest) ← FieldType.readAll? descriptor.toList.tail
    let result ← FieldType.result? rest
    pure (.ofMethod parameters result)
  else
    (FieldType.whole? descriptor.toList).map .ofField

variable {descriptor : String}

/-- Only what begins with a bracket is read as a method. -/
theorem parse?_eq_ofField_iff {type : FieldType} :
    parse? descriptor = some (.ofField type) ↔
      FieldType.whole? descriptor.toList = some type := by
  rw [parse?]
  split
  · next h =>
    constructor
    · intro hread
      obtain ⟨parameters, -, hread⟩ := Option.bind_eq_some_iff.1 hread
      obtain ⟨result, -, hsame⟩ := Option.bind_eq_some_iff.1 hread
      cases hsame
    · intro hread
      rw [(FieldType.whole?_eq_some_iff.1 hread).2] at h
      exact absurd h (type.head?_letters_ne (.inl rfl))
  · simp

/-- A descriptor of a method has its parameters and its result. -/
theorem parse?_eq_ofMethod_iff {parameters : List FieldType} {result : Option FieldType} :
    parse? descriptor = some (.ofMethod parameters result) ↔
      ∃ text rest, descriptor.toList = '(' :: text ∧
        FieldType.readAll? text = some (parameters, rest) ∧
        FieldType.result? rest = some result := by
  rw [parse?]
  split
  · next h =>
    obtain ⟨text, htext⟩ := List.head?_eq_some_iff.1 h
    rw [htext, List.tail_cons]
    constructor
    · intro hread
      obtain ⟨⟨parameters', rest⟩, hparameters, hread⟩ := Option.bind_eq_some_iff.1 hread
      obtain ⟨result', hresult, hsame⟩ := Option.bind_eq_some_iff.1 hread
      cases hsame
      exact ⟨text, rest, rfl, hparameters, hresult⟩
    · rintro ⟨text', rest, hsame, hparameters, hresult⟩
      rw [(List.cons.inj hsame).2, hparameters]
      simp [hresult]
  · next h =>
    constructor
    · intro hread
      obtain ⟨type, -, hsame⟩ := Option.map_eq_some_iff.1 hread
      cases hsame
    · rintro ⟨text, rest, htext, -⟩
      rw [htext] at h
      exact absurd rfl h

/-- The trees that a text is read as are those that it is the text of, so there is at most one. -/
theorem parse?_eq_some_iff {t : Tree} :
    parse? descriptor = some t ↔ t.Fits ∧ t.spell = descriptor := by
  have hspell : t.spell = descriptor ↔ descriptor.toList = t.spell.toList := by
    rw [String.toList_inj, eq_comm]
  rw [hspell]
  cases t with
  | ofField type =>
    rw [parse?_eq_ofField_iff, FieldType.whole?_eq_some_iff]
    simp [Tree.Fits, Tree.types, Tree.spell]
  | ofMethod parameters result =>
    have hfits : (Tree.ofMethod parameters result).Fits ↔
        (∀ t ∈ parameters, t.Fits) ∧ ∀ t ∈ result, t.Fits := by
      simp [Tree.Fits, Tree.types, or_imp, forall_and]
    rw [parse?_eq_ofMethod_iff, hfits]
    simp only [FieldType.readAll?_eq_some_iff, FieldType.result?_eq_some_iff]
    constructor
    · rintro ⟨text, rest, htext, ⟨hparameters, rfl⟩, hresult, rfl⟩
      exact ⟨⟨hparameters, hresult⟩, by rw [htext, Tree.spell, String.toList_ofList]⟩
    · rintro ⟨⟨hparameters, hresult⟩, hsame⟩
      rw [Tree.spell, String.toList_ofList] at hsame
      exact ⟨_, _, hsame, ⟨hparameters, rfl⟩, hresult, rfl⟩

end Crosswalk.Descriptor
