import Crosswalk.Transducer

/-!
# Descriptors

A descriptor spells the type of a field or a method. Class names stand in it between an `L` and a
semicolon, and everything else is copied: `Descriptor.pieces` takes any text apart in this way, and
`Descriptor.map` puts it together with other names.
-/

namespace Crosswalk.Descriptor

/-- A part of a descriptor. -/
inductive Piece
  | verbatim (c : Char)
  /-- The name of a class, whose end is marked by a semicolon. -/
  | name (s : String)
  deriving DecidableEq, Repr

/-- Where a descriptor has been read to. -/
inductive State
  | outside
  /-- Behind an `L` and some letters of a name. -/
  | inName (s : String)
  deriving DecidableEq, Repr

/-- Reads one character. -/
def step : State → Char → State × List Piece
  | .outside, c => (if c = 'L' then .inName "" else .outside, [.verbatim c])
  | .inName s, c => if c = ';' then (.outside, [.name s]) else (.inName (s.push c), [])

/-- A name that is not closed ends with the text. -/
def finish : State → List Piece
  | .outside => []
  | .inName s => [.name s]

/-- Takes descriptors apart. -/
def scanner : Transducer State Char Piece :=
  ⟨step, finish⟩

/-- The pieces of a descriptor. -/
def pieces (descriptor : String) : List Piece :=
  scanner.emitted .outside descriptor.toList

/-- A piece with its name replaced, and closed by a semicolon. -/
def Piece.render (f : String → String) : Piece → String
  | verbatim c => c.toString
  | name s => f s ++ ";"

/-- The class names of a descriptor in order. -/
def names (descriptor : String) : List String :=
  (pieces descriptor).filterMap fun
    | .verbatim _ => none
    | .name s => some s

/-- Replaces every class name of a descriptor. -/
def map (f : String → String) (descriptor : String) : String :=
  String.join ((pieces descriptor).map (Piece.render f))

/-- Whether the name in a class constant is the descriptor of an array. -/
def isArray (name : String) : Bool :=
  name.toList.head? == some '['

/-- Replaces the name in a class constant, which for an array is a descriptor. -/
def mapConstant (f : String → String) (name : String) : String :=
  if isArray name then map f name else f name

/-- The class names in a class constant. -/
def constantNames (name : String) : List String :=
  if isArray name then names name else [name]

example (f : String → String) : map f "I" = "I" := rfl

end Crosswalk.Descriptor
