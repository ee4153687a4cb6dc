import Crosswalk.Proofs.ClassFile.RoundTrip
import Crosswalk.Proofs.ClassTree.Annotations
import Crosswalk.Proofs.ClassTree.Frames

/-!
# Method bodies read back

The attributes of a method body are its parts: at most one with frames, at most one with each kind
of local variables, and those that are not picked apart. A body is read back exactly if its tables
of local variables can be counted (`Code.writes_write`); several tables that have been read are one
table of all their variables from then on, which is the only way for a table to become too long.
-/

namespace Crosswalk

open Reader (Reads Takes Yields)
open PoolBuilder (text Writes)

/-! ## Attributes that are carried along -/

namespace OpaqueAttribute

/-- An attribute is read from the bytes of one with a slot for its name. -/
theorem reads_bytes {s : Scope} {a : Attribute} {name : String}
    (hname : s.pool.utf8 a.name = .ok name)
    (h : a.Regular) : Reads (OpaqueAttribute.read s) a.bytes ⟨name, a.info⟩ := by
  have hcount : (UInt32.ofNat a.info.length).toNat = a.info.length := UInt32.toNat_ofNat_of_lt' h
  rw [Attribute.bytes, List.append_assoc]
  refine (Scope.reads_utf8 hname).bind ((Reads.u32 _ (UInt32.ofNat a.info.length)).bind ?_)
  exact (Reads.block _ a.info hcount).bind_pure

/-- An attribute that is read takes six bytes and its own ones, whose number fits its field. -/
theorem yields_read (s : Scope) : Yields (OpaqueAttribute.read s) fun a n =>
    a.info.length < 4294967296 ∧ n = 6 + a.info.length := by
  refine Scope.yields_utf8.bind fun name n hn => (Yields.u32 _).bind fun length k hk => ?_
  refine (Yields.block _ _).bind fun info j hinfo => Yields.pure ⟨?_, ?_⟩
  · rw [hinfo.1]
    exact length.toNat_lt
  · show n + (k + (j + 0)) = 6 + info.length
    omega

/-- Writing an attribute asks for its name. -/
theorem writes_toAttribute (a : OpaqueAttribute) :
    Writes a.toAttribute [a.name] fun p b => p.utf8 b.name = .ok a.name ∧ b.info = a.info :=
  (PoolBuilder.writes_text a.name).map fun _ _ hi => ⟨hi, rfl⟩

end OpaqueAttribute

/-- The name of an attribute gets its slot behind the body. -/
theorem Attribute.writes_build {name : String} {info : Build Bytes} {texts : List String}
    {q : ConstantPool → Bytes → Prop} (h : Writes info texts q) :
    Writes (Attribute.build name info) (texts ++ [name]) fun p a =>
      p.utf8 a.name = .ok name ∧ q p a.info :=
  h.bind fun _ => (PoolBuilder.writes_text name).map fun _ _ hi hinfo => ⟨hi, hinfo⟩

section LeftOut

variable {α β γ δ : Type}

/-- What is made of a list is left out where the list is empty. -/
theorem mem_unlessEmpty (make : List α → β) (l : List α) (b : β) :
    (b ∈ if l.isEmpty then [] else [make l]) ↔ l ≠ [] ∧ b = make l := by
  cases l <;> simp

/-- A table is made of what is there, if there is something. -/
theorem map_unlessEmpty (make : List α → β) (make' : List γ → δ) {f : α → γ} {g : β → δ}
    (h : ∀ l, g (make l) = make' (l.map f)) (l : List α) :
    (if l.isEmpty then [] else [make l]).map g =
      if (l.map f).isEmpty then [] else [make' (l.map f)] := by
  cases l with
  | nil => rfl
  | cons a l => exact congrArg ([·]) (h (a :: l))

namespace Attribute

variable {name : String} (toAttribute : β → Build Attribute)

/-- An attribute that is left out where there are no items is that of a part that is left out. -/
theorem buildUnlessEmpty_eq {write : List α → Build Bytes} (make : List α → β)
    (h : ∀ l, toAttribute (make l) = build name (write l)) (l : List α) :
    buildUnlessEmpty name write l = (if l.isEmpty then [] else [make l]).mapM toAttribute := by
  cases l <;> simp [buildUnlessEmpty, h]

/-- What may be missing is written as a list of at most one item. -/
theorem buildIfSome_eq {write : α → Build Bytes} (make : α → β)
    (h : ∀ a, toAttribute (make a) = build name (write a)) (value : Option α) :
    buildIfSome name write value = (value.map make).toList.mapM toAttribute := by
  cases value <;> simp [buildIfSome, h]

end Attribute

end LeftOut

/-! ## Local variables and handlers -/

namespace LocalVariable

/-- The texts of a local variable. -/
def texts (v : LocalVariable) : List String :=
  [v.name, v.type]

/-- A local variable is written as ten bytes that are read as that variable. -/
theorem writes_write (v : LocalVariable) :
    Writes v.write v.texts fun p t =>
      t.length = 10 ∧ ∀ name, Reads (LocalVariable.read ⟨p, name⟩) t v := by
  refine (writes_textSlot v.name).bind fun name => (writes_textSlot v.type).map ?_
  rintro p _ ⟨j, hj, rfl⟩ ⟨i, hi, rfl⟩
  refine ⟨rfl, fun name => ?_⟩
  refine (Reads.u16 _ v.start).bind ((Reads.u16 _ v.length).bind ?_)
  exact (Scope.reads_utf8 hi).bind ((Scope.reads_utf8 hj).bind (Reads.u16 _ v.index).bind_pure)

/-- A local variable takes ten bytes. -/
theorem yields_read (s : Scope) : Yields (LocalVariable.read s) fun _ n => n = 10 := by
  refine (Yields.u16 _).bind fun start _ h₁ => (Yields.u16 _).bind fun length _ h₂ => ?_
  refine Scope.yields_utf8.bind fun name _ h₃ => Scope.yields_utf8.bind fun type _ h₄ => ?_
  refine (Yields.u16 _).bind fun index _ h₅ => Yields.pure ?_
  omega

/-- A table of local variables is read back exactly if sixteen bits hold its length. -/
theorem writes_writeAll (vs : List LocalVariable) :
    Writes (writeAll vs) (vs.flatMap texts) fun p info => info.length = 2 + 10 * vs.length ∧
      ∀ name ws, Scope.whole ⟨p, name⟩
        (Scope.counted ⟨p, name⟩ (LocalVariable.read ⟨p, name⟩)) info = .ok ws ↔
          vs.length < 65536 ∧ ws = vs := by
  refine (Writes.mapM fun v _ => v.writes_write).map fun p ts hts => ⟨?_, fun name ws => ?_⟩
  · have hlengths : vs.map (fun _ => 10) = ts.map List.length :=
      map_eq_map_of_forall₂ (hts.imp fun _ _ h => h.1.symm)
    rw [List.length_append, List.length_flatten, ← hlengths]
    simp [Bytes.count]
    omega
  · refine Scope.whole_counted_eq_ok_iff (hts.imp fun _ _ h => h.2 name) fun t ht hempty => ?_
    obtain ⟨v, -, hlength, -⟩ := exists_of_forall₂_right hts ht
    rw [hempty] at hlength
    cases hlength

end LocalVariable

/-- A handler is read back from its bytes. -/
theorem Handler.reads_bytes (s : Scope) (h : Handler) : Reads (Handler.read s) h.bytes h := by
  refine (Reads.u16 _ h.start).bind ((Reads.u16 _ h.stop).bind ?_)
  exact (Reads.u16 _ h.entry).bind (Reads.u16 _ h.caught).bind_pure

/-- A handler takes eight bytes. -/
theorem Handler.yields_read (s : Scope) : Yields (Handler.read s) fun _ n => n = 8 := by
  refine (Yields.u16 _).bind fun start _ h₁ => (Yields.u16 _).bind fun stop _ h₂ => ?_
  refine (Yields.u16 _).bind fun entry _ h₃ => (Yields.u16 _).bind fun caught _ h₄ => ?_
  refine Yields.pure ?_
  omega

/-! ## Parts of a body -/

namespace Code

namespace Part

/-- The name of the attribute. -/
def name : Part → String
  | frames _ => framesName
  | locals _ => localsName
  | localTypes _ => localTypesName
  | other a => a.name

/-- The texts of a part, the name of the attribute last. -/
def texts : Part → List String
  | frames fs => fs.flatMap Frame.texts ++ [framesName]
  | locals vs => vs.flatMap LocalVariable.texts ++ [localsName]
  | localTypes vs => vs.flatMap LocalVariable.texts ++ [localTypesName]
  | other a => [a.name]

/-- The number of bytes of the body of the attribute. -/
def infoSize : Part → Nat
  | frames fs => 2 + (fs.map (·.size)).sum
  | locals vs => 2 + 10 * vs.length
  | localTypes vs => 2 + 10 * vs.length
  | other a => a.info.length

/-- The number of bytes of the attribute. -/
def size (part : Part) : Nat :=
  6 + part.infoSize

/-- The part may have been read. -/
def Regular : Part → Prop
  | frames fs => fs.length < 65536 ∧ ∀ frame ∈ fs, frame.Regular
  | locals _ | localTypes _ => True
  | other a => a.name ≠ framesName ∧ a.name ≠ localsName ∧ a.name ≠ localTypesName

/-- A table of local variables can be counted. -/
def Fits : Part → Prop
  | locals vs | localTypes vs => vs.length < 65536
  | frames _ | other _ => True

/-- The attribute of a part. -/
def toAttribute : Part → Build Attribute
  | frames fs => Attribute.build framesName (Frame.writeAll fs)
  | locals vs => Attribute.build localsName (LocalVariable.writeAll vs)
  | localTypes vs => Attribute.build localTypesName (LocalVariable.writeAll vs)
  | other a => a.toAttribute

/-- What an attribute is picked apart into: that which its name announces, or the attribute. -/
inductive Picks (p : ConstantPool) : OpaqueAttribute → Part → Prop
  | frames {info : Bytes} {fs : List (Frame String)}
      (h : Scope.whole ⟨p, framesName⟩
        (Scope.counted ⟨p, framesName⟩ (Frame.read ⟨p, framesName⟩)) info = .ok fs) :
    Picks p ⟨framesName, info⟩ (.frames fs)
  | locals {info : Bytes} {vs : List LocalVariable}
      (h : Scope.whole ⟨p, localsName⟩
        (Scope.counted ⟨p, localsName⟩ (LocalVariable.read ⟨p, localsName⟩)) info = .ok vs) :
    Picks p ⟨localsName, info⟩ (.locals vs)
  | localTypes {info : Bytes} {vs : List LocalVariable}
      (h : Scope.whole ⟨p, localTypesName⟩
        (Scope.counted ⟨p, localTypesName⟩ (LocalVariable.read ⟨p, localTypesName⟩))
        info = .ok vs) :
    Picks p ⟨localTypesName, info⟩ (.localTypes vs)
  | other {a : OpaqueAttribute} (hframes : a.name ≠ framesName) (hlocals : a.name ≠ localsName)
      (hlocalTypes : a.name ≠ localTypesName) : Picks p a (.other a)

/-- What an attribute of a body is taken for depends on its name alone. -/
theorem ofAttribute_eq_ok_iff {p : ConstantPool} {a : OpaqueAttribute} {part : Part} :
    ofAttribute p a = .ok part ↔ Picks p a part := by
  constructor
  · intro h
    obtain ⟨name, info⟩ := a
    unfold ofAttribute at h
    split at h
    · next hname =>
      obtain rfl : name = framesName := hname
      obtain ⟨fs, hfs, rfl⟩ := map_eq_ok_iff.1 h
      exact .frames hfs
    split at h
    · next hname =>
      obtain rfl : name = localsName := hname
      obtain ⟨vs, hvs, rfl⟩ := map_eq_ok_iff.1 h
      exact .locals hvs
    split at h
    · next hname =>
      obtain rfl : name = localTypesName := hname
      obtain ⟨vs, hvs, rfl⟩ := map_eq_ok_iff.1 h
      exact .localTypes hvs
    · next hframes hlocals hlocalTypes =>
      cases h
      exact .other hframes hlocals hlocalTypes
  · intro h
    cases h with
    | frames h | locals h | localTypes h => exact map_eq_ok_iff.2 ⟨_, h, rfl⟩
    | other hframes hlocals hlocalTypes =>
      rw [ofAttribute, if_neg hframes, if_neg hlocals, if_neg hlocalTypes]
      rfl

/-- A list of frames is written as a body that is read back as that list. -/
theorem writes_frames (fs : List (Frame String)) :
    Writes (Frame.writeAll fs) (fs.flatMap Frame.texts) fun p info =>
      info.length = 2 + (fs.map (·.size)).sum ∧ (fs.length < 65536 ∧ (∀ f ∈ fs, f.Regular) →
        ∀ name, Scope.whole ⟨p, name⟩ (Scope.counted ⟨p, name⟩ (Frame.read ⟨p, name⟩)) info =
          .ok fs) := by
  refine (Writes.mapM fun f _ => f.writes).map fun p us hus => ⟨?_, fun hregular name => ?_⟩
  · have hlengths : fs.map (·.size) = us.map fun u => u.bytes.length :=
      map_eq_map_of_forall₂ (hus.imp fun _ _ h => h.1.symm)
    rw [hlengths, Bytes.counted, List.length_append, List.length_flatMap]
    rfl
  · rw [Bytes.counted, ← hus.length_eq, List.flatMap_def]
    refine Scope.whole_of_reads (Reads.counted hregular.1 ?_)
    rw [List.forall₂_map_right_iff]
    refine List.forall₂_iff_zip.2 ⟨hus.length_eq, fun {f u} hzip => ?_⟩
    have hf := hregular.2 f (List.of_mem_zip hzip).1
    exact (List.forall₂_zip hus hzip).2 hf name

/-- The attribute of a part is read back as that part exactly if it can be counted. -/
theorem writes_toAttribute (part : Part) :
    Writes part.toAttribute part.texts fun p a =>
      p.utf8 a.name = .ok part.name ∧ a.info.length = part.infoSize ∧
        (part.Regular → ∀ back, ofAttribute p ⟨part.name, a.info⟩ = .ok back ↔
          part.Fits ∧ back = part) := by
  cases part with
  | frames fs =>
    refine (Attribute.writes_build (writes_frames fs)).mono fun p a h => ?_
    refine ⟨h.1, h.2.1, fun hregular back => ?_⟩
    simp only [ofAttribute, name, if_true]
    refine map_eq_ok_iff_of_iff fun gs => ?_
    rw [h.2.2 hregular framesName, Except.ok.injEq, Fits, true_and, eq_comm]
  | locals vs =>
    have hne : localsName ≠ framesName := by decide
    refine (Attribute.writes_build (LocalVariable.writes_writeAll vs)).mono fun p a h => ?_
    refine ⟨h.1, h.2.1, fun _ back => ?_⟩
    simp only [ofAttribute, name, if_true, if_neg hne]
    exact map_eq_ok_iff_of_iff (h.2.2 localsName)
  | localTypes vs =>
    have hne : localTypesName ≠ framesName ∧ localTypesName ≠ localsName := by decide
    refine (Attribute.writes_build (LocalVariable.writes_writeAll vs)).mono fun p a h => ?_
    refine ⟨h.1, h.2.1, fun _ back => ?_⟩
    simp only [ofAttribute, name, if_true, if_neg hne.1, if_neg hne.2]
    exact map_eq_ok_iff_of_iff (h.2.2 localTypesName)
  | other o =>
    refine o.writes_toAttribute.mono fun p a h => ⟨h.1, congrArg List.length h.2, ?_⟩
    rintro ⟨hframes, hlocals, hlocalTypes⟩ back
    simp only [ofAttribute, name, if_neg hframes, if_neg hlocals, if_neg hlocalTypes, h.2]
    exact ⟨fun h => ⟨trivial, (Except.ok.inj h).symm⟩, fun h => congrArg Except.ok h.2.symm⟩

end Part

/-- The parts of a body in the order in which they are written. -/
def parts (code : Code) : List Part :=
  (code.frames.map Part.frames).toList ++
    ((if code.locals.isEmpty then [] else [.locals code.locals]) ++
      ((if code.localTypes.isEmpty then [] else [.localTypes code.localTypes]) ++
        code.attributes.map .other))

/-- The body with what the parts say. -/
def ofParts (code : Code) (parts : List Part) : Code :=
  { code with
    frames := (parts.filterMap Part.frames?).getLast?
    locals := parts.flatMap Part.localList
    localTypes := parts.flatMap Part.localTypeList
    attributes := parts.filterMap Part.other? }

/-- The texts of a body. -/
def texts (code : Code) : List String :=
  code.parts.flatMap Part.texts

/-- The number of bytes of a body. -/
def size (code : Code) : Nat :=
  12 + code.bytecode.length + 8 * code.handlers.length + (code.parts.map Part.size).sum

/-- The body may have been read. -/
structure Regular (code : Code) : Prop where
  bytecode : code.bytecode.length < 4294967296
  handlers : code.handlers.length < 65536
  count : code.parts.length < 65536
  parts : ∀ part ∈ code.parts, part.Regular
  size : code.size < 4294967296

/-- Both tables of local variables can be counted. -/
def Fits (code : Code) : Prop :=
  ∀ part ∈ code.parts, part.Fits

/-- The parts of a body are its frames, the two tables of local variables, and the attributes that
are carried along. -/
theorem mem_parts {code : Code} {part : Part} : part ∈ code.parts ↔
    (∃ fs, code.frames = some fs ∧ part = .frames fs) ∨
      (code.locals ≠ [] ∧ part = .locals code.locals) ∨
        (code.localTypes ≠ [] ∧ part = .localTypes code.localTypes) ∨
          ∃ a ∈ code.attributes, part = .other a := by
  rw [parts, List.mem_append, List.mem_append, List.mem_append, mem_unlessEmpty, mem_unlessEmpty,
    List.mem_map]
  cases code.frames <;> simp [eq_comm]

/-- The parts of a body make up that body. -/
theorem ofParts_parts (code : Code) : code.ofParts code.parts = code := by
  obtain ⟨maxStack, maxLocals, bytecode, handlers, frames, locals, localTypes, attributes⟩ := code
  have hothers : ∀ l : List OpaqueAttribute,
      (l.map Part.other).filterMap Part.frames? = [] ∧
        (l.map Part.other).flatMap Part.localList = [] ∧
          (l.map Part.other).flatMap Part.localTypeList = [] ∧
            (l.map Part.other).filterMap Part.other? = l := by
    intro l
    induction l with
    | nil => exact ⟨rfl, rfl, rfl, rfl⟩
    | cons a l ih => simp [Part.frames?, Part.localList, Part.localTypeList, Part.other?, ih]
  obtain ⟨hframes, hlocals, hlocalTypes, hattributes⟩ := hothers attributes
  cases frames <;> cases locals <;> cases localTypes <;>
    simp [parts, ofParts, List.filterMap_cons, Part.frames?, Part.localList, Part.localTypeList,
      Part.other?, hframes, hlocals, hlocalTypes, hattributes]

/-- Every part of a body has its attribute. -/
theorem toAttributes_eq (code : Code) : code.toAttributes = code.parts.mapM Part.toAttribute := by
  rw [toAttributes, parts, Attribute.buildIfSome_eq Part.toAttribute .frames fun _ => rfl,
    Attribute.buildUnlessEmpty_eq Part.toAttribute .locals fun _ => rfl,
    Attribute.buildUnlessEmpty_eq Part.toAttribute .localTypes fun _ => rfl]
  simp only [List.mapM_append, List.mapM_map, bind_assoc, pure_bind]
  rfl

/-! ## Parts that have been read -/

section Merging

variable {cost : Part → Nat}

/-- What a table costs, which is left out where it is empty. -/
def tableCost (cost : Part → Nat) (make : List LocalVariable → Part) (vs : List LocalVariable) :
    Nat :=
  if vs.isEmpty then 0 else cost (make vs)

/-- What the parts of a body cost. -/
theorem sum_parts (code : Code) : (code.parts.map cost).sum =
    (code.frames.map fun fs => cost (.frames fs)).getD 0 +
      (tableCost cost .locals code.locals + (tableCost cost .localTypes code.localTypes +
        (code.attributes.map fun a => cost (.other a)).sum)) := by
  have htable : ∀ (make : List LocalVariable → Part) (vs : List LocalVariable),
      ((if vs.isEmpty then [] else [make vs]).map cost).sum = tableCost cost make vs := by
    intro make vs
    cases vs <;> simp [tableCost]
  rw [parts, List.map_append, List.sum_append, List.map_append, List.sum_append, List.map_append,
    List.sum_append, htable, htable, List.map_map]
  cases code.frames <;> simp [Function.comp_def]

/-- A table that joins others does not cost more than they do together. -/
theorem merged_le {make : List LocalVariable → Part}
    (hmerge : ∀ vs ws, cost (make (vs ++ ws)) ≤ cost (make vs) + cost (make ws))
    (vs ws : List LocalVariable) :
    tableCost cost make (vs ++ ws) ≤ cost (make vs) + tableCost cost make ws := by
  cases ws with
  | nil => cases vs <;> simp [tableCost]
  | cons w ws => simpa [tableCost] using hmerge vs (w :: ws)

/-- The parts of a body do not cost more than the parts it has been read from. -/
theorem sum_parts_ofParts_le (code : Code)
    (hlocals : ∀ vs ws, cost (.locals (vs ++ ws)) ≤ cost (.locals vs) + cost (.locals ws))
    (hlocalTypes : ∀ vs ws,
      cost (.localTypes (vs ++ ws)) ≤ cost (.localTypes vs) + cost (.localTypes ws))
    (ps : List Part) : ((code.ofParts ps).parts.map cost).sum ≤ (ps.map cost).sum := by
  induction ps with
  | nil => simp [sum_parts, ofParts, tableCost]
  | cons p ps ih =>
    refine Nat.le_trans ?_ (Nat.add_le_add_left ih (cost p))
    simp only [sum_parts, ofParts, List.flatMap_cons]
    cases p with
    | frames fs =>
      simp only [List.filterMap_cons, Part.frames?, Part.other?, Part.localList,
        Part.localTypeList, List.nil_append, List.getLast?_cons]
      cases (ps.filterMap Part.frames?).getLast? <;> simp
    | locals vs =>
      simp only [List.filterMap_cons, Part.frames?, Part.other?, Part.localList,
        Part.localTypeList, List.nil_append]
      have h := merged_le hlocals vs (ps.flatMap Part.localList)
      omega
    | localTypes vs =>
      simp only [List.filterMap_cons, Part.frames?, Part.other?, Part.localList,
        Part.localTypeList, List.nil_append]
      have h := merged_le hlocalTypes vs (ps.flatMap Part.localTypeList)
      omega
    | other a =>
      simp only [List.filterMap_cons, Part.frames?, Part.other?, Part.localList,
        Part.localTypeList, List.nil_append, List.map_cons, List.sum_cons]
      omega

end Merging

/-- What is picked apart could be picked apart again, and is no longer than it was. -/
theorem Part.of_ofAttribute_eq_ok {pool : ConstantPool} {a : OpaqueAttribute} {part : Part}
    (h : ofAttribute pool a = .ok part) : part.Regular ∧ part.infoSize ≤ a.info.length := by
  have htable : ∀ {s : Scope} {vs : List LocalVariable},
      s.whole (s.counted (LocalVariable.read s)) a.info = .ok vs →
        2 + 10 * vs.length ≤ a.info.length := by
    intro s vs hvs
    obtain ⟨-, ns, hns, hlength⟩ :=
      Scope.of_whole_eq_ok (LocalVariable.yields_read s).counted hvs
    have hsum : vs.map (fun _ => 10) = ns :=
      (map_eq_map_of_forall₂ (g := id) (hns.imp fun _ _ h => h.symm)).trans (List.map_id _)
    rw [hlength, ← hsum]
    simp
    omega
  cases ofAttribute_eq_ok_iff.1 h with
  | @frames _ fs hfs =>
    obtain ⟨hcount, ns, hns, hlength⟩ := Scope.of_whole_eq_ok (Frame.yields_read _).counted hfs
    refine ⟨⟨hcount, fun f hf => ?_⟩, ?_⟩
    · obtain ⟨n, -, hregular, -⟩ := exists_of_forall₂_left hns hf
      exact hregular
    · have hsum : (fs.map (·.size)).sum ≤ ns.sum :=
        (List.forall₂_map_left_iff.2 (hns.imp fun _ _ h => h.2)).sum_le_sum
      rw [infoSize, hlength]
      omega
  | locals hvs | localTypes hvs => exact ⟨trivial, htable hvs⟩
  | other hframes hlocals hlocalTypes => exact ⟨⟨hframes, hlocals, hlocalTypes⟩, Nat.le_refl _⟩

/-- The parts of a body that has been read could be read again. -/
theorem regular_parts_ofParts (code : Code) {ps : List Part} (h : ∀ part ∈ ps, part.Regular) :
    ∀ part ∈ (code.ofParts ps).parts, part.Regular := by
  intro part hpart
  rcases mem_parts.1 hpart with ⟨fs, hfs, rfl⟩ | ⟨-, rfl⟩ | ⟨-, rfl⟩ | ⟨a, ha, rfl⟩
  · obtain ⟨p, hp, hframes⟩ := List.mem_filterMap.1 (List.mem_of_getLast? hfs)
    cases p <;> cases hframes
    exact h _ hp
  · trivial
  · trivial
  · obtain ⟨p, hp, hother⟩ := List.mem_filterMap.1 ha
    cases p <;> cases hother
    exact h _ hp

/-- A part that is read is regular, and no larger than what is read. -/
theorem Part.yields_read (s : Scope) :
    Yields (Part.read s) fun part n => part.Regular ∧ part.size ≤ n := by
  refine (OpaqueAttribute.yields_read s).bind fun a n ha => Yields.lift fun part hpart => ?_
  obtain ⟨hregular, hsize⟩ := of_ofAttribute_eq_ok hpart
  refine ⟨hregular, ?_⟩
  rw [size, ha.2]
  omega

/-- A body that is read could be read again, and is no longer than what it is read from. -/
theorem yields_read (s : Scope) : Yields (Code.read s) fun code n =>
    code.size ≤ n ∧ (n < 4294967296 → code.Regular) := by
  refine (Yields.u16 _).bind fun maxStack _ h₁ => (Yields.u16 _).bind fun maxLocals _ h₂ => ?_
  refine (Yields.u32 _).bind fun length _ h₃ => (Yields.block _ _).bind fun bytecode _ h₄ => ?_
  refine (Handler.yields_read s).counted.bind fun handlers _ h₅ => ?_
  refine (Part.yields_read s).counted.bind fun ps _ h₆ => Yields.pure ?_
  obtain ⟨hhandlers, ns, hns, h₅⟩ := h₅
  obtain ⟨hcount, ks, hks, h₆⟩ := h₆
  let base : Code := { maxStack, maxLocals, bytecode, handlers, frames := none, locals := [],
                       localTypes := [], attributes := [] }
  have hhandlerSize : handlers.map (fun _ => 8) = ns :=
    (map_eq_map_of_forall₂ (g := id) (hns.imp fun _ _ h => h.symm)).trans (List.map_id _)
  have hsum : ns.sum = 8 * handlers.length := by
    rw [← hhandlerSize]
    simp
    omega
  have hread : (ps.map Part.size).sum ≤ ks.sum :=
    (List.forall₂_map_left_iff.2 (hks.imp fun _ _ h => h.2)).sum_le_sum
  have hsize : ((base.ofParts ps).parts.map Part.size).sum ≤ (ps.map Part.size).sum :=
    base.sum_parts_ofParts_le (fun vs ws => by simp [Part.size, Part.infoSize]; omega)
      (fun vs ws => by simp [Part.size, Part.infoSize]; omega) ps
  have hparts : (base.ofParts ps).parts.length ≤ ps.length := by
    have h : ((base.ofParts ps).parts.map fun _ => 1).sum ≤ (ps.map fun _ => 1).sum :=
      base.sum_parts_ofParts_le (fun _ _ => by omega) (fun _ _ => by omega) ps
    simpa using h
  have htotal : (base.ofParts ps).size =
      12 + bytecode.length + 8 * handlers.length + ((base.ofParts ps).parts.map Part.size).sum :=
    rfl
  have hregular : ∀ part ∈ (base.ofParts ps).parts, part.Regular := by
    refine base.regular_parts_ofParts fun part hpart => ?_
    obtain ⟨k, -, hk⟩ := exists_of_forall₂_left hks hpart
    exact hk.1
  refine ⟨?_, fun hn => ⟨?_, hhandlers, ?_, hregular, ?_⟩⟩
  · show (base.ofParts ps).size ≤ _
    omega
  · show bytecode.length < 4294967296
    omega
  · exact Nat.lt_of_le_of_lt hparts hcount
  · show (base.ofParts ps).size < _
    omega

/-- A body that is read from an attribute could be read again. -/
theorem regular_of_ofInfo {pool : ConstantPool} {info : Bytes} {code : Code}
    (h : ofInfo pool info = .ok code) (hinfo : info.length < 4294967296) : code.Regular :=
  (Scope.of_whole_eq_ok (yields_read _) h).2 hinfo

/-! ## Writing a body -/

/-- Picks an attribute with a slot for its name apart. -/
def Part.ofSlot (pool : ConstantPool) (a : Attribute) : Except Malformed Part := do
  ofAttribute pool (← OpaqueAttribute.ofAttribute pool a)

/-- An attribute is picked apart under its name. -/
theorem Part.ofSlot_eq {pool : ConstantPool} {a : Attribute} {name : String}
    (h : pool.utf8 a.name = .ok name) : ofSlot pool a = ofAttribute pool ⟨name, a.info⟩ := by
  rw [ofSlot, OpaqueAttribute.ofAttribute, h]
  rfl

/-- The bytes of an attribute are taken for the part that it is, or fail as picking it apart
does. -/
theorem Part.takes_bytes {s : Scope} {a : Attribute} (h : a.Regular) :
    Takes (Part.read s) a.bytes (Part.ofSlot s.pool a) := by
  cases hname : s.pool.utf8 a.name with
  | ok name =>
    rw [ofSlot_eq hname]
    exact (OpaqueAttribute.reads_bytes hname h).takes_lift (ofAttribute s.pool)
  | error e =>
    have hsame : Part.ofSlot s.pool a = .error e := by
      rw [Part.ofSlot, OpaqueAttribute.ofAttribute, hname]
      rfl
    intro rest
    rw [hsame, Attribute.bytes, List.append_assoc, List.append_assoc]
    have hslot : Takes s.utf8 (Bytes.ofUInt16 a.name) (.error e) :=
      hname ▸ (Reads.u16 s.short a.name).takes_lift s.pool.utf8
    exact Reader.bind_error (Reader.bind_error (hslot _))

/-- A body is taken for what its bytes say, or fails as picking its attributes apart does. -/
theorem takes_body {s : Scope} (code : Code) {as : List Attribute}
    (hbytecode : code.bytecode.length < 4294967296) (hhandlers : code.handlers.length < 65536)
    (hcount : as.length < 65536)
    (has : ∀ a ∈ as, a.Regular) :
    Takes (Code.read s) (Bytes.ofUInt16 code.maxStack ++ (Bytes.ofUInt16 code.maxLocals ++
      (Bytes.ofUInt32 (UInt32.ofNat code.bytecode.length) ++ (code.bytecode ++
        (Bytes.counted Handler.bytes code.handlers ++ Bytes.counted Attribute.bytes as)))))
      ((as.mapM (Part.ofSlot s.pool)).map code.ofParts) := by
  have hlength : (UInt32.ofNat code.bytecode.length).toNat = code.bytecode.length :=
    UInt32.toNat_ofNat_of_lt' hbytecode
  have hparts : Takes (s.counted (Part.read s)) (Bytes.counted Attribute.bytes as)
      (as.mapM (Part.ofSlot s.pool)) := by
    have hall : List.Forall₂ (fun e t => Takes (Part.read s) t e) (as.map (Part.ofSlot s.pool))
        (as.map Attribute.bytes) := by
      rw [List.forall₂_map_left_iff, List.forall₂_map_right_iff, List.forall₂_same]
      exact fun a ha => Part.takes_bytes (has a ha)
    have htakes : Takes (s.counted (Part.read s)) _ _ :=
      Takes.counted (by rw [List.length_map]; exact hcount) hall
    rw [List.length_map, ← List.flatMap_def, List.mapM_map] at htakes
    exact htakes
  refine (Reads.u16 _ code.maxStack).takes_bind ((Reads.u16 _ code.maxLocals).takes_bind ?_)
  refine (Reads.u32 _ (UInt32.ofNat code.bytecode.length)).takes_bind ?_
  refine (Reads.block _ code.bytecode hlength).takes_bind ?_
  refine (Reads.counted_flatMap hhandlers fun h _ => h.reads_bytes s).takes_bind ?_
  exact hparts.bind_pure code.ofParts

/-- A body is read back exactly if its tables of local variables can be counted. -/
theorem writes_write (code : Code) :
    Writes code.write code.texts fun p info => info.length = code.size ∧
      (code.Regular → ∀ back, ofInfo p info = .ok back ↔ code.Fits ∧ back = code) := by
  rw [write, toAttributes_eq]
  refine (Writes.mapM fun part _ => part.writes_toAttribute).map fun p as has => ⟨?_, ?_⟩
  · have hlengths : code.parts.map Part.size = as.map fun a => a.bytes.length :=
      map_eq_map_of_forall₂ (has.imp fun part a h => by
        rw [Part.size, ← h.2.1]
        simp [Attribute.bytes]
        omega)
    have hhandlers :
        (code.handlers.map fun h => h.bytes.length).sum = 8 * code.handlers.length := by
      rw [show (fun h : Handler => h.bytes.length) = fun _ => 8 from rfl]
      simp
      omega
    rw [size, hlengths]
    simp [Bytes.counted, Bytes.count, List.length_flatMap, hhandlers]
    omega
  · intro hregular back
    have hlength := has.length_eq
    have hregular' : ∀ (part : Part) (a : Attribute), part ∈ code.parts →
        a.info.length = part.infoSize → a.Regular := by
      intro part a hpart hinfo
      have hle := List.single_le_sum (fun _ _ => Nat.zero_le _) _ (List.mem_map_of_mem hpart)
        (l := code.parts.map Part.size)
      have hsize := hregular.size
      rw [size] at hsize
      rw [Part.size] at hle
      rw [Attribute.Regular]
      omega
    have htakes := takes_body (s := ⟨p, attributeName⟩) code hregular.bytecode hregular.handlers
      (hlength ▸ hregular.count) fun a (ha : a ∈ as) => by
        obtain ⟨part, hpart, -, hsize, -⟩ := exists_of_forall₂_right has ha
        exact hregular' part a hpart hsize
    -- Each attribute is read back as its part, and the parts make up the body again.
    have hback : List.Forall₂ (fun part a =>
        ∀ back, True ∧ Part.ofSlot p a = .ok back ↔ part.Fits ∧ back = part) code.parts as := by
      refine List.forall₂_iff_zip.2 ⟨hlength, fun {part a} hzip => ?_⟩
      obtain ⟨hname, -, hpart⟩ := List.forall₂_zip has hzip
      intro back
      rw [Part.ofSlot_eq hname, true_and]
      exact hpart (hregular.parts part (List.of_mem_zip hzip).1) back
    have hall := fun ps => forall_and_mapM_eq_ok_iff hback (k := ps)
    rw [ofInfo, Scope.whole_of_takes htakes]
    show (as.mapM (Part.ofSlot p)).map code.ofParts = .ok back ↔ _
    constructor
    · intro h
      obtain ⟨ps, hps, rfl⟩ := map_eq_ok_iff.1 h
      obtain ⟨hfits, rfl⟩ := (hall ps).1 ⟨fun _ _ => trivial, hps⟩
      exact ⟨hfits, code.ofParts_parts⟩
    · rintro ⟨hfits, rfl⟩
      rw [((hall _).2 ⟨hfits, rfl⟩).2]
      exact congrArg Except.ok back.ofParts_parts

end Code

end Crosswalk
