import Crosswalk.Names.Nested
import Crosswalk.Transducer

/-!
# Generic signatures

A signature spells a type with its type arguments, or the type parameters of a class or a method
and the types it is made of. A class type inside another one is written as the outer type, with its
arguments, a dot and a simple name; its binary name joins the two by a dollar sign. `pieces` takes
any text apart, `map` puts it together with other binary names.

No signature is refused. Where a text stops making sense the rest is copied, except that behind a
broken bound of a type parameter reading goes on as behind the parameters.
-/

namespace Crosswalk.Signature

/-- A part of a signature. -/
inductive Piece
  | verbatim (c : Char)
  /-- The binary name of a class that is not written behind a dot. -/
  | outer (name : String)
  /-- The simple name behind a dot, with the binary name of the class before the dot. -/
  | inner (outside simple : String)
  deriving DecidableEq, Repr

/-- What surrounds a type. -/
structure Context where
  /-- Whether the type is, or belongs to, a bound of a type parameter. -/
  inParameters : Bool
  /-- The classes whose type arguments it belongs to, innermost first. -/
  classes : List String
  deriving DecidableEq, Repr

/-- Where a signature has been read to. -/
inductive State
  | start
  /-- Between the types that a signature is made of. -/
  | body
  /-- Inside the name of a type parameter, or behind a bound of one. -/
  | parameters
  /-- Behind the colon that comes before a bound. -/
  | colon
  /-- Before a type. -/
  | type (around : Context)
  /-- Inside the name of a type variable. -/
  | variable (around : Context)
  /-- Behind some letters of a class name. -/
  | className (name : String) (around : Context)
  /-- Behind a class, by binary name. -/
  | afterClass (name : String) (around : Context)
  /-- Behind a class, a dot and some letters of a simple name. -/
  | simpleName (outside simple : String) (around : Context)
  /-- Between the type arguments of a class. -/
  | arguments (name : String) (around : Context)
  /-- Behind something that makes no sense. -/
  | broken
  deriving DecidableEq, Repr

/-! ## Reading -/

/-- The letters that stand for primitive types. -/
def isPrimitive (c : Char) : Bool :=
  c = 'B' || c = 'C' || c = 'D' || c = 'F' || c = 'I' || c = 'J' || c = 'S' || c = 'Z'

/-- The characters that end a name. -/
def isEnd (c : Char) : Bool :=
  c = '<' || c = '.' || c = ';'

/-- Where reading goes on behind a whole type. -/
def State.behind (around : Context) : State :=
  match around.classes with
  | name :: classes => .arguments name { around with classes }
  | [] => if around.inParameters then .parameters else .body

/-- The state after the first character of a type, if it is one. -/
def State.type? (around : Context) (c : Char) : Option State :=
  if isPrimitive c then some (.behind around)
  else if c = '[' then some (.type around)
  else if c = 'T' then some (.variable around)
  else if c = 'L' then some (.className "" around)
  else none

/-- The state after a character between the types that a signature is made of. -/
def State.inBody (c : Char) : State :=
  if c = '(' || c = ')' || c = '^' || c = 'V' then .body
  else (State.type? ⟨false, []⟩ c).getD .broken

/-- The state after a character that makes no sense as part of a type. -/
def State.failed (around : Context) (c : Char) : State :=
  if around.inParameters then .inBody c else .broken

/-- The state after the first character of a type, or of something else. -/
def State.inType (around : Context) (c : Char) : State :=
  (State.type? around c).getD (.failed around c)

/-- The state after a character of the type parameters. -/
def State.inParameters (c : Char) : State :=
  if c = '>' then .body else if c = ':' then .colon else .parameters

/-- The state after a character behind a class. -/
def State.inClass (name : String) (around : Context) (c : Char) : State :=
  if c = '<' then .arguments name around
  else if c = '.' then .simpleName name "" around
  else if c = ';' then .behind around
  else .failed around c

/-- The state after a character between type arguments. -/
def State.inArguments (name : String) (around : Context) (c : Char) : State :=
  let within : Context := { around with classes := name :: around.classes }
  if c = '>' then .afterClass name around
  else if c = '*' then .arguments name around
  else if c = '+' || c = '-' then .type within
  else .inType within c

/-- Reads one character. -/
def step : State → Char → State × List Piece
  | .start, c => (if c = '<' then .parameters else .inBody c, [.verbatim c])
  | .body, c => (.inBody c, [.verbatim c])
  | .parameters, c => (.inParameters c, [.verbatim c])
  | .colon, c =>
    (if c = ':' || c = '>' then .inParameters c else .inType ⟨true, []⟩ c, [.verbatim c])
  | .type around, c => (.inType around c, [.verbatim c])
  | .variable around, c => (if c = ';' then .behind around else .variable around, [.verbatim c])
  | .className name around, c =>
    if isEnd c then (.inClass name around c, [.outer name, .verbatim c])
    else (.className (name.push c) around, [])
  | .afterClass name around, c => (.inClass name around c, [.verbatim c])
  | .simpleName outside simple around, c =>
    if isEnd c then
      (.inClass (Nested.join outside simple) around c, [.inner outside simple, .verbatim c])
    else
      (.simpleName outside (simple.push c) around, [])
  | .arguments name around, c => (.inArguments name around c, [.verbatim c])
  | .broken, c => (.broken, [.verbatim c])

/-- A name that is not closed ends with the text. -/
def finish : State → List Piece
  | .className name _ => [.outer name]
  | .simpleName outside simple _ => [.inner outside simple]
  | _ => []

/-- Takes signatures apart. -/
def scanner : Transducer State Char Piece :=
  ⟨step, finish⟩

/-- The pieces of a signature. -/
def pieces (signature : String) : List Piece :=
  scanner.emitted .start signature.toList

/-! ## Putting together -/

/-- The simple name to write behind a dot: what the new binary name has in addition to that of the
outer class, else what it has behind its last dollar sign, else the old simple name. -/
def simpleName (f : String → String) (outside simple : String) : String :=
  let name := f (Nested.join outside simple)
  match Nested.inside? (f outside) name with
  | some rest => rest
  | none =>
    match Nested.split? name with
    | some (_, last) => last
    | none => simple

/-- A piece with its names replaced. -/
def Piece.render (f : String → String) : Piece → String
  | verbatim c => c.toString
  | outer name => f name
  | inner outside simple => simpleName f outside simple

/-- The binary name that a piece is about. -/
def Piece.name? : Piece → Option String
  | verbatim _ => none
  | outer name => some name
  | inner outside simple => some (Nested.join outside simple)

/-- The binary names of a signature in order. -/
def names (signature : String) : List String :=
  (pieces signature).filterMap Piece.name?

/-- Replaces every binary name of a signature. -/
def map (f : String → String) (signature : String) : String :=
  String.join ((pieces signature).map (Piece.render f))

example (f : String → String) : map f "I" = "I" := rfl

end Crosswalk.Signature
