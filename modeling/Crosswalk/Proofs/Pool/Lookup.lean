import Crosswalk.ClassTree.Reading
import Crosswalk.Proofs.ClassFile.Constants
import Crosswalk.Proofs.Outcome

/-!
# Looking up in a pool that grows

While a pool is built, `integer 0` holds the slot of every constant that is not known yet. A pool is
`Within` a later one if the later one has all its other constants in the same slots; whatever has
been looked up successfully in the first is then answered alike by the second.
-/

namespace Crosswalk

namespace ConstantPool

/-- Every constant of the first pool, except those that may only hold a slot, is in the second. -/
def Within (p q : ConstantPool) : Prop :=
  ∀ i c, c ≠ .integer 0 → p.find? i = some c → q.find? i = some c

theorem Within.refl (p : ConstantPool) : p.Within p :=
  fun _ _ _ h => h

theorem Within.trans {p q r : ConstantPool} (hpq : p.Within q) (hqr : q.Within r) : p.Within r :=
  fun i c hc h => hqr i c hc (hpq i c hc h)

/-! ## When a look-up succeeds -/

/-- A constant is looked up in its slot. -/
theorem constant_eq_ok_iff {p : ConstantPool} {i : Index} {c : Constant} :
    p.constant i = .ok c ↔ p.find? i.toNat = some c := by
  unfold constant
  cases p.find? i.toNat <;> simp

/-- Behind a look-up that succeeds, the next step is taken with what was found. -/
theorem bind_constant {α : Type} {p : ConstantPool} {i : Index} {f : Constant → Except Malformed α}
    {a : α} (h : (p.constant i >>= f) = .ok a) : ∃ c, p.find? i.toNat = some c ∧ f c = .ok a := by
  cases hc : p.constant i with
  | error e =>
    rw [hc] at h
    cases h
  | ok c =>
    rw [hc] at h
    exact ⟨c, constant_eq_ok_iff.1 hc, h⟩

/-- A text is in its slot. -/
theorem utf8_eq_ok_iff {p : ConstantPool} {i : Index} {s : String} :
    p.utf8 i = .ok s ↔ p.find? i.toNat = some (.utf8 s) := by
  constructor
  · intro h
    obtain ⟨c, hc, h⟩ := bind_constant h
    cases c <;> first | cases h; exact hc | cases h
  · intro h
    rw [utf8, constant_eq_ok_iff.2 h]
    rfl

/-- The slot of a class leads to its name. -/
theorem className_eq_ok_iff {p : ConstantPool} {i : Index} {s : String} :
    p.className i = .ok s ↔
      ∃ n, p.find? i.toNat = some (.className n) ∧ p.find? n.toNat = some (.utf8 s) := by
  constructor
  · intro h
    obtain ⟨c, hc, h⟩ := bind_constant h
    cases c <;> first | exact ⟨_, hc, utf8_eq_ok_iff.1 h⟩ | cases h
  · rintro ⟨n, hn, hs⟩
    rw [className, constant_eq_ok_iff.2 hn]
    exact utf8_eq_ok_iff.2 hs

/-- The slot of a pair leads to two texts. -/
theorem nameAndType_eq_ok_iff {p : ConstantPool} {i : Index} {s t : String} :
    p.nameAndType i = .ok (s, t) ↔
      ∃ n d, p.find? i.toNat = some (.nameAndType n d) ∧ p.find? n.toNat = some (.utf8 s) ∧
        p.find? d.toNat = some (.utf8 t) := by
  constructor
  · intro h
    obtain ⟨c, hc, h⟩ := bind_constant h
    cases c with
    | nameAndType n d =>
      obtain ⟨s', hs, h⟩ := bind_eq_ok_iff.1 h
      obtain ⟨t', ht, h⟩ := bind_eq_ok_iff.1 h
      cases h
      exact ⟨n, d, hc, utf8_eq_ok_iff.1 hs, utf8_eq_ok_iff.1 ht⟩
    | _ => cases h
  · rintro ⟨n, d, hc, hs, ht⟩
    rw [nameAndType, constant_eq_ok_iff.2 hc]
    show (p.utf8 n >>= fun name => p.utf8 d >>= fun descriptor => pure (name, descriptor)) = _
    rw [utf8_eq_ok_iff.2 hs, utf8_eq_ok_iff.2 ht]
    rfl

/-! ## What a later pool answers -/

variable {p q : ConstantPool}

/-- A text is found in larger pools too. -/
theorem Within.utf8 (h : p.Within q) {i : Index} {s : String} (hs : p.utf8 i = .ok s) :
    q.utf8 i = .ok s :=
  utf8_eq_ok_iff.2 (h _ _ (by simp) (utf8_eq_ok_iff.1 hs))

theorem Within.className (h : p.Within q) {i : Index} {s : String} (hs : p.className i = .ok s) :
    q.className i = .ok s := by
  obtain ⟨n, hn, hs⟩ := className_eq_ok_iff.1 hs
  exact className_eq_ok_iff.2 ⟨n, h _ _ (by simp) hn, h _ _ (by simp) hs⟩

theorem Within.nameAndType (h : p.Within q) {i : Index} {s : String × String}
    (hs : p.nameAndType i = .ok s) : q.nameAndType i = .ok s := by
  obtain ⟨n, d, hc, hs, ht⟩ := nameAndType_eq_ok_iff.1 hs
  exact nameAndType_eq_ok_iff.2
    ⟨n, d, h _ _ (by simp) hc, h _ _ (by simp) hs, h _ _ (by simp) ht⟩

end ConstantPool

/-! ## Where a constant leads -/

namespace Entry

/-- The slots of a member lead to its owner, and to its name and descriptor. -/
theorem member_eq_ok_iff {p : ConstantPool} {owner pair : Index} {m : MemberRef} :
    member p owner pair = .ok m ↔
      p.className owner = .ok m.owner ∧ p.nameAndType pair = .ok (m.name, m.descriptor) := by
  constructor
  · intro h
    obtain ⟨⟨name, descriptor⟩, hpair, h⟩ := bind_eq_ok_iff.1 h
    obtain ⟨o, howner, rfl⟩ := map_eq_ok_iff.1 h
    exact ⟨howner, hpair⟩
  · rintro ⟨howner, hpair⟩
    exact bind_eq_ok_iff.2 ⟨_, hpair, map_eq_ok_iff.2 ⟨_, howner, rfl⟩⟩

/-- A constant leads to an entry, whose texts are where its slots point. -/
inductive Leads (p : ConstantPool) : Constant → Entry → Prop
  | utf8 (text : String) : Leads p (.utf8 text) (.utf8 text)
  | rawUtf8 (body : Bytes) : Leads p (.rawUtf8 body) (.rawUtf8 body)
  | integer (n : Int32) : Leads p (.integer n) (.integer n)
  | float (x : Binary32) : Leads p (.float x) (.float x)
  | long (n : Int64) : Leads p (.long n) (.long n)
  | double (x : Binary64) : Leads p (.double x) (.double x)
  | className {i : Index} {name : String} (hname : p.utf8 i = .ok name) :
    Leads p (.className i) (.className name)
  | string {i : Index} {text : String} (htext : p.utf8 i = .ok text) :
    Leads p (.string i) (.string text)
  | rawString {i : Index} {body : Bytes} (hbody : p.find? i.toNat = some (.rawUtf8 body)) :
    Leads p (.string i) (.rawString i)
  | fieldRef {i j : Index} {m : MemberRef} (hm : member p i j = .ok m) :
    Leads p (.fieldRef i j) (.fieldRef m)
  | methodRef {i j : Index} {m : MemberRef} (ofInterface : Bool) (hm : member p i j = .ok m) :
    Leads p (.methodRef i j ofInterface) (.methodRef m ofInterface)
  | nameAndType {i j : Index} {name descriptor : String} (hname : p.utf8 i = .ok name)
      (hdescriptor : p.utf8 j = .ok descriptor) :
    Leads p (.nameAndType i j) (.nameAndType name descriptor)
  | fieldHandle {i owner pair : Index} (kind : HandleKind)
      (hm : p.find? i.toNat = some (.fieldRef owner pair)) :
    Leads p (.methodHandle kind i) (.methodHandle kind i)
  | methodHandle {i owner pair : Index} {ofInterface : Bool} (kind : HandleKind)
      (hm : p.find? i.toNat = some (.methodRef owner pair ofInterface)) :
    Leads p (.methodHandle kind i) (.methodHandle kind i)
  | methodType {i : Index} {descriptor : String} (hdescriptor : p.utf8 i = .ok descriptor) :
    Leads p (.methodType i) (.methodType descriptor)
  | dynamic {i : Index} {name descriptor : String} (bootstrap : UInt16)
      (hpair : p.nameAndType i = .ok (name, descriptor)) :
    Leads p (.dynamic bootstrap i) (.dynamic bootstrap name descriptor)
  | invokeDynamic {i : Index} {name descriptor : String} (bootstrap : UInt16)
      (hpair : p.nameAndType i = .ok (name, descriptor)) :
    Leads p (.invokeDynamic bootstrap i) (.invokeDynamic bootstrap name descriptor)
  | moduleName {i : Index} {name : String} (hname : p.utf8 i = .ok name) :
    Leads p (.moduleName i) (.moduleName name)
  | packageName {i : Index} {name : String} (hname : p.utf8 i = .ok name) :
    Leads p (.packageName i) (.packageName name)

variable {p : ConstantPool} {c : Constant} {e : Entry}

/-- A constant that is resolved leads to its entry. -/
theorem Leads.of_ofConstant (h : ofConstant p c = .ok e) : Leads p c e := by
  cases c with
  | utf8 _ | rawUtf8 _ | integer _ | float _ | long _ | double _ =>
    cases h
    constructor
  | className _ | methodType _ | moduleName _ | packageName _ | fieldRef _ _ | methodRef _ _ _ =>
    obtain ⟨_, hfound, rfl⟩ := map_eq_ok_iff.1 h
    constructor
    exact hfound
  | string i =>
    obtain ⟨c, hc, h⟩ := ConstantPool.bind_constant h
    -- Only a text without characters of its own is kept by its slot.
    cases c with
    | rawUtf8 body =>
      cases h
      exact .rawString hc
    | _ =>
      obtain ⟨text, htext, rfl⟩ := map_eq_ok_iff.1 h
      exact .string htext
  | nameAndType i j =>
    obtain ⟨name, hname, h⟩ := bind_eq_ok_iff.1 h
    obtain ⟨descriptor, hdescriptor, rfl⟩ := map_eq_ok_iff.1 h
    exact .nameAndType hname hdescriptor
  | methodHandle kind i =>
    obtain ⟨c, hc, h⟩ := ConstantPool.bind_constant h
    cases c with
    | fieldRef owner pair =>
      cases h
      exact .fieldHandle kind hc
    | methodRef owner pair ofInterface =>
      cases h
      exact .methodHandle kind hc
    | _ => cases h
  | dynamic bootstrap i =>
    obtain ⟨⟨name, descriptor⟩, hpair, h⟩ := bind_eq_ok_iff.1 h
    cases h
    exact .dynamic bootstrap hpair
  | invokeDynamic bootstrap i =>
    obtain ⟨⟨name, descriptor⟩, hpair, h⟩ := bind_eq_ok_iff.1 h
    cases h
    exact .invokeDynamic bootstrap hpair

/-- A constant that leads to an entry is resolved to it. -/
theorem Leads.ofConstant_eq (h : Leads p c e) : ofConstant p c = .ok e := by
  cases h with
  | utf8 | rawUtf8 | integer | float | long | double => rfl
  | className hfound | methodType hfound | moduleName hfound | packageName hfound
  | fieldRef hfound | methodRef _ hfound => exact map_eq_ok_iff.2 ⟨_, hfound, rfl⟩
  | string htext =>
    rw [ofConstant, literal, bind_eq_of_ok
      (ConstantPool.constant_eq_ok_iff.2 (ConstantPool.utf8_eq_ok_iff.1 htext))]
    exact map_eq_ok_iff.2 ⟨_, htext, rfl⟩
  | rawString hbody =>
    rw [ofConstant, literal, bind_eq_of_ok (ConstantPool.constant_eq_ok_iff.2 hbody)]
    rfl
  | nameAndType hname hdescriptor =>
    exact bind_eq_ok_iff.2 ⟨_, hname, map_eq_ok_iff.2 ⟨_, hdescriptor, rfl⟩⟩
  | fieldHandle kind hm | methodHandle kind hm =>
    rw [ofConstant, handle, bind_eq_of_ok (ConstantPool.constant_eq_ok_iff.2 hm)]
    rfl
  | dynamic bootstrap hpair | invokeDynamic bootstrap hpair =>
    exact bind_eq_ok_iff.2 ⟨_, hpair, rfl⟩

/-- What is read of a constant is the entry that it leads to. -/
theorem ofConstant_eq_ok_iff : ofConstant p c = .ok e ↔ Leads p c e :=
  ⟨.of_ofConstant, Leads.ofConstant_eq⟩

end Entry

/-- The entry of a constant stays the same. -/
theorem ConstantPool.Within.ofConstant {p q : ConstantPool} (h : p.Within q) {c : Constant}
    {e : Entry} (he : Entry.ofConstant p c = .ok e) : Entry.ofConstant q c = .ok e := by
  have hmember : ∀ {i j : Index} {m : MemberRef}, Entry.member p i j = .ok m →
      Entry.member q i j = .ok m := by
    intro i j m hm
    rw [Entry.member_eq_ok_iff] at hm ⊢
    exact ⟨h.className hm.1, h.nameAndType hm.2⟩
  rw [Entry.ofConstant_eq_ok_iff] at he ⊢
  cases he with
  | utf8 | rawUtf8 | integer | float | long | double => constructor
  | className htext | string htext | methodType htext | moduleName htext | packageName htext =>
    constructor
    exact h.utf8 htext
  | rawString hbody => exact .rawString (h _ _ (by simp) hbody)
  | fieldRef hm => exact .fieldRef (hmember hm)
  | methodRef ofInterface hm => exact .methodRef ofInterface (hmember hm)
  | nameAndType hname hdescriptor => exact .nameAndType (h.utf8 hname) (h.utf8 hdescriptor)
  | fieldHandle kind hm => exact .fieldHandle kind (h _ _ (by simp) hm)
  | methodHandle kind hm => exact .methodHandle kind (h _ _ (by simp) hm)
  | dynamic bootstrap hpair => exact .dynamic bootstrap (h.nameAndType hpair)
  | invokeDynamic bootstrap hpair => exact .invokeDynamic bootstrap (h.nameAndType hpair)

end Crosswalk
