import Crosswalk.Bytes
import Crosswalk.Files.Path
import Crosswalk.Text.Hex

/-!
# Locations

A location is the URI of a resource. In the URI of a file every byte of the path that could be
mistaken for something else is written as a percent sign and two digits. A URI that was escaped
twice has `%25` for each percent sign of the first time, which `collapse` undoes.
-/

namespace Crosswalk

/-- The URI of a resource. -/
structure Location where
  uri : String
  deriving DecidableEq, Inhabited

namespace Location

/-! ## Escaping -/

/-- Whether a byte stands for itself: letters, digits, and the punctuation of paths. -/
def isPlain (b : UInt8) : Bool :=
  (65 ≤ b && b ≤ 90) || (97 ≤ b && b ≤ 122) || (48 ≤ b && b ≤ 57) ||
    "-._~/:!$+=@".toList.any fun c => c.toNat = b.toNat

/-- A byte as it stands in a URI. -/
def escapeByte (b : UInt8) : List Char :=
  if isPlain b then [Char.ofNat b.toNat] else '%' :: Hex.upperByte b

/-- A path as it stands in a URI. -/
def escape (path : String) : String :=
  String.ofList (path.toUTF8.toList.flatMap escapeByte)

/-- The byte that two digits spell. The first one may be a plus sign, which counts as zero. -/
def byte? (high low : UInt8) : Option UInt8 := do
  let h ← if high = 43 then some 0 else Hex.digit? (Char.ofNat high.toNat)
  let l ← Hex.digit? (Char.ofNat low.toNat)
  pure (UInt8.ofNat (16 * h + l))

/-- The bytes that an escaped path spells. -/
def unescapeBytes : Bytes → Option Bytes
  | [] => some []
  | 37 :: high :: low :: rest => do
    let b ← byte? high low
    pure (b :: (← unescapeBytes rest))
  | b :: rest => if b = 37 then none else do pure (b :: (← unescapeBytes rest))

/-- The path that an escaped one spells. -/
def unescape (path : String) : Option String := do
  let bytes ← unescapeBytes path.toUTF8.toList
  String.fromUTF8? ⟨bytes.toArray⟩

/-! ## Files -/

/-- What the URI of a file starts with. -/
def fileScheme : String := "file://"

/-- A path without backslashes that starts with a slash. -/
def rooted (path : String) : String :=
  let path := String.ofList (path.toList.map fun c => if c = '\\' then '/' else c)
  if Path.isAbsolute path then path else "/" ++ path

/-- The URI of a file, whose path is seen from the working directory. -/
def ofPath (workingDirectory path : String) : Location :=
  ⟨fileScheme ++ escape (rooted (Path.join workingDirectory path))⟩

/-- The path of a file from its URI. -/
def toPath? (location : Location) : Option String :=
  match fileScheme.toList.isPrefixOf? location.uri.toList with
  | some rest => unescape (String.ofList rest)
  | none => none

/-! ## Escaping twice -/

/-- Whether a text starts with two hexadecimal digits. -/
def startsWithByte : List Char → Bool
  | high :: low :: _ => Hex.isDigit high && Hex.isDigit low
  | _ => false

/-- Drops the `25` of every escaped percent sign that two digits follow. -/
def collapseChars : List Char → List Char
  | '%' :: '2' :: '5' :: rest =>
    if startsWithByte rest then '%' :: collapseChars rest
    else '%' :: '2' :: '5' :: collapseChars rest
  | c :: rest => c :: collapseChars rest
  | [] => []

/-- A location that was escaped twice as it was after the first time. -/
def collapse (location : Location) : Location :=
  ⟨String.ofList (collapseChars location.uri.toList)⟩

/-- Only what is followed by two digits is an escaped escape. -/
example : collapse ⟨"a%25b"⟩ = ⟨"a%25b"⟩ := by decide

end Location

end Crosswalk
