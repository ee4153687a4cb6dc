import Crosswalk.ClassFile.Constant

/-!
# Pool entries by name

An entry is a constant whose slots are resolved into the texts they lead to. Only a method handle
and the literal of a text that spells no characters keep a slot: the entries they point at never
move.
-/

namespace Crosswalk

/-- A field or a method of some class. -/
structure MemberRef where
  owner : String
  name : String
  descriptor : String
  deriving DecidableEq, Inhabited, Hashable

/-- A constant with its texts. -/
inductive Entry
  | utf8 (text : String)
  /-- Modified UTF-8 that has a surrogate without a partner, as its bytes. -/
  | rawUtf8 (body : Bytes)
  | integer (n : Int32)
  | float (x : Binary32)
  | long (n : Int64)
  | double (x : Binary64)
  /-- The name of a class, or the descriptor of an array. -/
  | className (name : String)
  | string (text : String)
  /-- A literal whose text is a `rawUtf8` entry. -/
  | rawString (text : Index)
  | fieldRef (member : MemberRef)
  | methodRef (member : MemberRef) (ofInterface : Bool)
  | nameAndType (name descriptor : String)
  | methodHandle (kind : HandleKind) (member : Index)
  | methodType (descriptor : String)
  | dynamic (bootstrap : UInt16) (name descriptor : String)
  | invokeDynamic (bootstrap : UInt16) (name descriptor : String)
  | moduleName (name : String)
  | packageName (name : String)
  deriving DecidableEq, Inhabited

/-- Numbers of eight bytes take up two slots, every other entry one. -/
def Entry.width : Entry → Nat
  | long _ | double _ => 2
  | _ => 1

instance : Wide Entry := ⟨Entry.width⟩

/-- The entries of a class by slot, from the first slot on without a gap. -/
structure EntryPool extends Slots Entry where
  laidOut : toSlots.LaidOut 1

namespace EntryPool

/-- Gives every entry the slots it needs. -/
def ofList (entries : List Entry) : EntryPool :=
  ⟨.ofList 1 entries, Slots.laidOut_ofList 1 entries⟩

/-- Slots that have been given out from the first one on are a pool. -/
instance (entries : List Entry) : CoeDep (Slots Entry) (Slots.ofList 1 entries) EntryPool :=
  ⟨ofList entries⟩

instance : Inhabited EntryPool := ⟨ofList []⟩

/-- Changes every entry into one of the same width, which keeps its slot. -/
def map (f : Entry → Entry) (hf : ∀ e, (f e).width = e.width) (es : EntryPool) : EntryPool :=
  ⟨es.toSlots.map fun _ e => f e, es.laidOut.map fun _ e => hf e⟩

/-! ## The view -/

/-- Entries that are given out from the first slot on are the slots of their pool. -/
@[simp] theorem toSlots_ofList (entries : List Entry) :
    (ofList entries).toSlots = .ofList 1 entries := rfl

/-- Entries keep their slots when they are changed. -/
@[simp] theorem toList_map (f : Entry → Entry) (hf : ∀ e, (f e).width = e.width) (es : EntryPool) :
    (es.map f hf).toList = es.toList.map fun item => (item.1, f item.2) :=
  Slots.toList_map _ _

/-- Entries with their slots are all there is. -/
theorem ext_toList {es es' : EntryPool} (h : es.toList = es'.toList) : es = es' := by
  obtain ⟨slots, hslots⟩ := es
  obtain ⟨slots', hslots'⟩ := es'
  have hnext : slots.next = slots'.next := hslots.stop_unique (by rw [h]; exact hslots')
  obtain rfl := Slots.ext_toList h hnext
  rfl

end EntryPool

end Crosswalk
