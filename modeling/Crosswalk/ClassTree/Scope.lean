import Crosswalk.ClassFile.Pool
import Crosswalk.Reader

/-!
# Reading attribute bodies

The body of an attribute is read in a scope: the pool that its slots point into, and the name of
the attribute, which every fault about its length mentions.
-/

namespace Crosswalk

/-- A pool, and the name of the attribute that is being read. -/
structure Scope where
  pool : ConstantPool
  name : String

namespace Scope

/-- The fault of a body that ends too early. -/
def short (s : Scope) : Malformed := .truncatedAttribute s.name

/-- The next byte. -/
def u8 (s : Scope) : Reader Malformed UInt8 := Reader.u8 s.short

/-- The next two bytes as a number. -/
def u16 (s : Scope) : Reader Malformed UInt16 := Reader.u16 s.short

/-- The next four bytes as a number. -/
def u32 (s : Scope) : Reader Malformed UInt32 := Reader.u32 s.short

/-- The next bytes as they are. -/
def block (s : Scope) (n : Nat) : Reader Malformed Bytes := Reader.block s.short n

/-- A count and that many items. -/
def counted {α : Type} (s : Scope) (item : Reader Malformed α) : Reader Malformed (List α) :=
  Reader.counted s.short item

/-- The text in the slot that comes next. -/
def utf8 (s : Scope) : Reader Malformed String := do
  let i ← s.u16
  s.pool.utf8 i

/-- The name of the class in the slot that comes next. -/
def className (s : Scope) : Reader Malformed String := do
  let i ← s.u16
  s.pool.className i

/-- Reads a body from its first byte to its last. -/
def whole {α : Type} (s : Scope) (body : Reader Malformed α) (info : Bytes) :
    Except Malformed α := do
  let (a, rest) ← body.run info
  if rest.isEmpty then pure a else throw (.trailingAttributeBytes s.name rest.length)

end Scope

end Crosswalk
