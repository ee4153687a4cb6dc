import Crosswalk.Bytes

/-!
# Stack map frames

A frame says what the local variables and the stack hold at some point of a method body, most often
by what has changed since the frame before. Classes are named in whatever way `κ` names them: by
text once a frame is resolved, by slot when it is written.
-/

namespace Crosswalk

/-- What a local variable or a place on the stack holds. -/
inductive VerificationType (κ : Type)
  | top
  | integer
  | float
  | double
  | long
  | null
  /-- The object under construction, before its constructor has been called. -/
  | uninitializedThis
  | object (type : κ)
  /-- A fresh object whose constructor has not been called, by the place that made it. -/
  | uninitialized (offset : UInt16)
  deriving DecidableEq, Inhabited

/-- A frame, at a distance from the one before. -/
inductive Frame (κ : Type)
  /-- The same local variables and an empty stack. -/
  | same (delta : UInt16)
  /-- The same local variables and one item on the stack. -/
  | oneItem (delta : UInt16) (item : VerificationType κ)
  /-- The last `count` local variables are gone, and the stack is empty. -/
  | chop (delta : UInt16) (count : UInt8)
  /-- There are more local variables, and the stack is empty. -/
  | append (delta : UInt16) (locals : List (VerificationType κ))
  /-- All local variables and the whole stack. -/
  | full (delta : UInt16) (locals stack : List (VerificationType κ))
  deriving DecidableEq, Inhabited

/-! ## Renaming classes -/

/-- Changes the class of an object type, in any monad. -/
def VerificationType.mapM {m : Type → Type} [Monad m] {κ ν : Type} (f : κ → m ν) :
    VerificationType κ → m (VerificationType ν)
  | top => pure .top
  | integer => pure .integer
  | float => pure .float
  | double => pure .double
  | long => pure .long
  | null => pure .null
  | uninitializedThis => pure .uninitializedThis
  | object type => do pure (.object (← f type))
  | uninitialized offset => pure (.uninitialized offset)

/-- Changes the class of an object type. -/
def VerificationType.map {κ ν : Type} (f : κ → ν) : VerificationType κ → VerificationType ν
  | top => .top
  | integer => .integer
  | float => .float
  | double => .double
  | long => .long
  | null => .null
  | uninitializedThis => .uninitializedThis
  | object type => .object (f type)
  | uninitialized offset => .uninitialized offset

/-- Changes the class of every object type of a frame, in any monad, locals before the stack. -/
def Frame.mapM {m : Type → Type} [Monad m] {κ ν : Type} (f : κ → m ν) :
    Frame κ → m (Frame ν)
  | same delta => pure (.same delta)
  | oneItem delta item => do pure (.oneItem delta (← item.mapM f))
  | chop delta count => pure (.chop delta count)
  | append delta locals => do pure (.append delta (← locals.mapM fun t => t.mapM f))
  | full delta locals stack => do
    let locals ← locals.mapM fun t => t.mapM f
    let stack ← stack.mapM fun t => t.mapM f
    pure (.full delta locals stack)

/-- Changes the class of every object type of a frame. -/
def Frame.map {κ ν : Type} (f : κ → ν) : Frame κ → Frame ν
  | same delta => .same delta
  | oneItem delta item => .oneItem delta (item.map f)
  | chop delta count => .chop delta count
  | append delta locals => .append delta (locals.map fun t => t.map f)
  | full delta locals stack =>
    .full delta (locals.map fun t => t.map f) (stack.map fun t => t.map f)

/-! ## Writing -/

/-- The tag of a type, and the slot or offset that belongs to it. -/
def VerificationType.bytes : VerificationType UInt16 → Bytes
  | top => [0]
  | integer => [1]
  | float => [2]
  | double => [3]
  | long => [4]
  | null => [5]
  | uninitializedThis => [6]
  | object type => 7 :: Bytes.ofUInt16 type
  | uninitialized offset => 8 :: Bytes.ofUInt16 offset

/-- The tag of a frame, and what belongs to it. A distance below 64 fits into the tag of the two
simplest frames. -/
def Frame.bytes : Frame UInt16 → Bytes
  | same delta => if delta < 64 then [delta.toUInt8] else 251 :: Bytes.ofUInt16 delta
  | oneItem delta item =>
    (if delta < 64 then [delta.toUInt8 + 64] else 247 :: Bytes.ofUInt16 delta) ++ item.bytes
  | chop delta count => (251 - count) :: Bytes.ofUInt16 delta
  | append delta locals =>
    (251 + UInt8.ofNat locals.length) :: (Bytes.ofUInt16 delta ++ locals.flatMap (·.bytes))
  | full delta locals stack =>
    255 :: (Bytes.ofUInt16 delta ++ (Bytes.counted (·.bytes) locals ++
      Bytes.counted (·.bytes) stack))

/-! ## Small facts -/

/-- A type whose class keeps its name is the type that it was. -/
@[simp] theorem VerificationType.map_id {κ : Type} (t : VerificationType κ) : t.map id = t := by
  cases t <;> rfl

/-- A frame whose classes keep their names is the frame that it was. -/
@[simp] theorem Frame.map_id {κ : Type} (frame : Frame κ) : frame.map id = frame := by
  cases frame <;> simp [Frame.map]

end Crosswalk
