import Std.Data.HashMap
import Crosswalk.ClassFile.Pool
import Crosswalk.ClassTree.Entry

/-!
# Building a constant pool

A pool is built in two steps. First every entry of a class tree goes into the slot it came from, so
that bytecode and opaque attributes go on pointing at the right constants. From then on constants
are only added at the end, and a text, a class or a pair of a name and a descriptor that the pool
has already is shared.
-/

namespace Crosswalk

/-- A constant that found no room, and the slot it would have got. -/
structure Overflow where
  constant : Constant
  offset : Nat
  deriving DecidableEq

/-- What is said about an overflow. -/
def Overflow.message (o : Overflow) : String :=
  s!"constant pool overflow at offset {o.offset}"

/-- The constants so far, and the slots of those that are shared: texts, classes by the slot of
their name, and pairs by the slots of their name and descriptor. -/
structure PoolBuilder where
  constants : ConstantPool
  texts : Std.HashMap String Index
  classes : Std.HashMap Index Index
  pairs : Std.HashMap (Index × Index) Index

/-- A computation that may add constants, and stops at the first one that finds no room. -/
abbrev Build := StateT PoolBuilder (Except Overflow)

namespace PoolBuilder

/-- A pool without constants. -/
def empty : PoolBuilder :=
  ⟨Slots.startingAt 1, ∅, ∅, ∅⟩

instance : Inhabited PoolBuilder := ⟨empty⟩

/-- The number behind the last slot has to fit into sixteen bits. -/
def slotLimit : Nat := 65535

/-! ## Adding at the end -/

/-- Adds a constant at the end if there is room, and answers its slot. -/
def push (c : Constant) : Build Index := fun b =>
  let slot := b.constants.next
  if slot + c.width ≤ slotLimit then
    .ok (UInt16.ofNat slot, { b with constants := b.constants.push c })
  else
    .error ⟨c, slot⟩

/-- The slot of a text, which is added if the pool has none. -/
def text (s : String) : Build Index := fun b =>
  match b.texts[s]? with
  | some slot => .ok (slot, b)
  | none => do
    let (slot, b) ← push (.utf8 s) b
    pure (slot, { b with texts := b.texts.insert s slot })

/-- The slot of the class whose name is in the given slot, which is added if the pool has none. -/
def classAt (name : Index) : Build Index := fun b =>
  match b.classes[name]? with
  | some slot => .ok (slot, b)
  | none => do
    let (slot, b) ← push (.className name) b
    pure (slot, { b with classes := b.classes.insert name slot })

/-- The slot of the pair whose parts are in the given slots, which is added if the pool has none. -/
def pairAt (name descriptor : Index) : Build Index := fun b =>
  match b.pairs[(name, descriptor)]? with
  | some slot => .ok (slot, b)
  | none => do
    let (slot, b) ← push (.nameAndType name descriptor) b
    pure (slot, { b with pairs := b.pairs.insert (name, descriptor) slot })

/-- The slot of a class. -/
def className (name : String) : Build Index := do
  classAt (← text name)

/-- The slot of a name and a descriptor. -/
def pair (name descriptor : String) : Build Index := do
  let name ← text name
  let descriptor ← text descriptor
  pairAt name descriptor

/-! ## Entries in the slots they came from -/

/-- What holds the slot of an entry before the other entries have slots. -/
def holding : Entry → Constant
  | .utf8 s => .utf8 s
  | .rawUtf8 body => .rawUtf8 body
  | .integer n => .integer n
  | .float x => .float x
  | .long n => .long n
  | .double x => .double x
  | _ => .integer 0

/-- Takes the next slot for an entry. A text is shared from now on under the slot it came from,
unless one like it is already. -/
def reserve (slot : Nat) (entry : Entry) : Build Unit := fun b => do
  let (_, b) ← push (holding entry) b
  match entry with
  | .utf8 s => pure ((), { b with texts := b.texts.insertIfNew s (UInt16.ofNat slot) })
  | _ => pure ((), b)

/-- Puts a constant in place of the one that holds its slot. -/
def settle (slot : Nat) (c : Constant) : Build Unit := fun b =>
  .ok ((), { b with constants := b.constants.set slot c })

/-- Lets a class be shared, unless there is one with that name already. -/
def shareClass (name slot : Index) : Build Unit := fun b =>
  .ok ((), { b with classes := b.classes.insertIfNew name slot })

/-- Lets a pair be shared, unless there is one with those parts already. -/
def sharePair (name descriptor slot : Index) : Build Unit := fun b =>
  .ok ((), { b with pairs := b.pairs.insertIfNew (name, descriptor) slot })

/-- Settles a class or a pair, which the other entries can share afterwards. -/
def settleShared (slot : Nat) : Entry → Build Unit
  | .className name => do
    let name ← text name
    shareClass name (UInt16.ofNat slot)
    settle slot (.className name)
  | .nameAndType name descriptor => do
    let name ← text name
    let descriptor ← text descriptor
    sharePair name descriptor (UInt16.ofNat slot)
    settle slot (.nameAndType name descriptor)
  | _ => pure ()

/-- Settles an entry that points at texts, classes or pairs. -/
def settlePointing (slot : Nat) : Entry → Build Unit
  | .string s => do settle slot (.string (← text s))
  | .rawString s => settle slot (.string s)
  | .fieldRef member => do
    let owner ← className member.owner
    settle slot (.fieldRef owner (← pair member.name member.descriptor))
  | .methodRef member ofInterface => do
    let owner ← className member.owner
    settle slot (.methodRef owner (← pair member.name member.descriptor) ofInterface)
  | .methodHandle kind member => settle slot (.methodHandle kind member)
  | .methodType descriptor => do settle slot (.methodType (← text descriptor))
  | .dynamic bootstrap name descriptor => do
    settle slot (.dynamic bootstrap (← pair name descriptor))
  | .invokeDynamic bootstrap name descriptor => do
    settle slot (.invokeDynamic bootstrap (← pair name descriptor))
  | .moduleName name => do settle slot (.moduleName (← text name))
  | .packageName name => do settle slot (.packageName (← text name))
  | _ => pure ()

/-- Puts every entry into the slot it came from. All slots are taken before anything is added. -/
def seed (entries : EntryPool) : Build Unit := do
  entries.toList.forM fun item => reserve item.1 item.2
  entries.toList.forM fun item => settleShared item.1 item.2
  entries.toList.forM fun item => settlePointing item.1 item.2

/-! ## Small facts -/

/-- What holds a slot is as wide as the entry it holds it for. -/
theorem width_holding (entry : Entry) : (holding entry).width = entry.width := by
  cases entry <;> rfl

end PoolBuilder

end Crosswalk
