import Crosswalk.ClassTree.Writing
import Crosswalk.Proofs.Pool.Building
import Crosswalk.Proofs.Reader.Bodies

/-!
# Frames read back

A frame that could have been read is written in the shortest form that says the same, and read back
from it in every pool in which its slots lead to the classes (`Frame.reads_bytes`), as they do in
the pool that has been built (`Frame.writes_mapM`). Since there may have been a longer form, all
that is known about the length is that it does not grow (`Frame.yields_read`).
-/

namespace Crosswalk

open Reader (Reads Yields)
open PoolBuilder (className Writes)

/-! ## Types -/

namespace VerificationType

/-- The class of an object type. -/
def texts : VerificationType String → List String
  | object type => [type]
  | _ => []

/-- The number of bytes of a type. -/
def size {κ : Type} : VerificationType κ → Nat
  | object _ | uninitialized _ => 3
  | _ => 1

/-- A type has the same size whatever its class is called. -/
@[simp] theorem size_map {κ ν : Type} (f : κ → ν) (t : VerificationType κ) :
    (t.map f).size = t.size := by
  cases t <;> rfl

/-- A type has as many bytes as its size says. -/
theorem length_bytes (u : VerificationType Index) : u.bytes.length = u.size := by
  cases u <;> rfl

/-- Looking up the class of a type does not change its size. -/
theorem size_of_mapM {ε κ ν : Type} {f : κ → Except ε ν} {u : VerificationType κ}
    {t : VerificationType ν} (h : u.mapM f = .ok t) : t.size = u.size := by
  cases u with
  | object type =>
    obtain ⟨c, -, rfl⟩ := map_eq_ok_iff.1 h
    rfl
  | _ =>
    cases h
    rfl

/-- A type is read from its bytes where its slot leads to the class. -/
theorem reads_bytes {p : ConstantPool} {u : VerificationType Index} {t : VerificationType String}
    (h : u.mapM p.className = .ok t) (name : String) : Reads (read ⟨p, name⟩) u.bytes t := by
  cases u with
  | object i =>
    obtain ⟨type, htype, rfl⟩ := map_eq_ok_iff.1 h
    exact (Reads.u8 _ 7).bind (Scope.reads_className (s := ⟨p, name⟩) htype).bind_pure
  | uninitialized offset =>
    cases h
    exact (Reads.u8 _ 8).bind (Reads.u16 _ offset).bind_pure
  | _ =>
    cases h
    exact (Reads.u8 _ _).bind_nil (Reads.pure _)

/-- The slot of a type leads to the class from then on. -/
theorem writes_mapM (t : VerificationType String) :
    Writes (t.mapM className) t.texts fun p u => u.mapM p.className = .ok t := by
  cases t with
  | object type =>
    exact (PoolBuilder.writes_className type).map fun p i hi => map_eq_ok_iff.2 ⟨type, hi.2, rfl⟩
  | _ => exact Writes.pure fun _ => rfl

/-- As many bytes are taken for a type as are written for it. -/
theorem yields_read (s : Scope) : Yields (read s) fun t n => t.size = n := by
  refine (Yields.u8 s.short).bind fun tag n hn => ?_
  subst hn
  split
  case h_8 => exact Scope.yields_className.bind fun type n hn => Yields.pure (by simp [size, hn])
  case h_9 => exact (Yields.u16 s.short).bind fun offset n hn => Yields.pure (by simp [size, hn])
  case h_10 => exact Yields.throw
  all_goals exact Yields.pure rfl

end VerificationType

/-! ## Frames -/

namespace Frame

/-- The classes of the object types of a frame. -/
def texts : Frame String → List String
  | same _ | chop _ _ => []
  | oneItem _ item => item.texts
  | append _ locals => locals.flatMap VerificationType.texts
  | full _ locals stack =>
    locals.flatMap VerificationType.texts ++ stack.flatMap VerificationType.texts

/-- The number of bytes of a frame in its shortest form. -/
def size {κ : Type} : Frame κ → Nat
  | same delta => if delta < 64 then 1 else 3
  | oneItem delta item => (if delta < 64 then 1 else 3) + item.size
  | chop _ _ => 3
  | append _ locals => 3 + (locals.map (·.size)).sum
  | full _ locals stack => 3 + (2 + (locals.map (·.size)).sum + (2 + (stack.map (·.size)).sum))

/-- There is a tag for the frame. -/
def Regular {κ : Type} : Frame κ → Prop
  | same _ | oneItem _ _ => True
  | chop _ count => 1 ≤ count ∧ count ≤ 3
  | append _ locals => 1 ≤ locals.length ∧ locals.length ≤ 3
  | full _ locals stack => locals.length < 65536 ∧ stack.length < 65536

/-- A frame has the same size whatever its classes are called. -/
@[simp] theorem size_map {κ ν : Type} (f : κ → ν) (frame : Frame κ) :
    (frame.map f).size = frame.size := by
  cases frame <;> simp [map, size, Function.comp_def]

/-- Whether its numbers fit its form does not depend on names either. -/
@[simp] theorem regular_map {κ ν : Type} (f : κ → ν) (frame : Frame κ) :
    (frame.map f).Regular ↔ frame.Regular := by
  cases frame <;> simp [map, Regular]

/-! ## Tags -/

variable {s : Scope} {frame : Frame String} {t : Bytes}

/-- The tag of a frame decides what is read behind it. -/
theorem reads_tag {b : UInt8} (h : Reads (readTagged s b) t frame) :
    Reads (Frame.read s) (b :: t) frame :=
  (Reads.u8 s.short b).bind h

/-- A distance below 64 fits into a byte. -/
theorem toUInt8_of_lt {delta : UInt16} (h : delta < 64) :
    delta.toNat < 64 ∧ delta.toUInt8.toNat = delta.toNat := by
  have hdelta : delta.toNat < 64 := UInt16.lt_iff_toNat_lt.1 h
  refine ⟨hdelta, ?_⟩
  rw [UInt16.toNat_toUInt8]
  exact Nat.mod_eq_of_lt (by omega)

/-- What is read behind a tag, by the range that the tag is in. -/
inductive Announces (s : Scope) (tag : UInt8) : Reader Malformed (Frame String) → Prop
  | same (h : tag.toNat < 64) : Announces s tag (pure (.same tag.toUInt16))
  | oneItem (h : 64 ≤ tag.toNat) (h' : tag.toNat < 128) :
    Announces s tag (do pure (.oneItem (tag.toUInt16 - 64) (← VerificationType.read s)))
  | reserved (h : 128 ≤ tag.toNat) (h' : tag.toNat < 247) :
    Announces s tag (throw (.reservedFrameTag tag))
  | farOneItem (h : tag.toNat = 247) :
    Announces s tag (do
      let delta ← s.u16
      pure (.oneItem delta (← VerificationType.read s)))
  | chop (h : 248 ≤ tag.toNat) (h' : tag.toNat < 251) :
    Announces s tag (do pure (.chop (← s.u16) (251 - tag)))
  | farSame (h : tag.toNat = 251) : Announces s tag (do pure (.same (← s.u16)))
  | append (h : 252 ≤ tag.toNat) (h' : tag.toNat < 255) :
    Announces s tag (do
      let delta ← s.u16
      pure (.append delta (← Reader.times (tag.toNat - 251) (VerificationType.read s))))
  | full (h : tag.toNat = 255) :
    Announces s tag (do
      let delta ← s.u16
      let locals ← s.counted (VerificationType.read s)
      let stack ← s.counted (VerificationType.read s)
      pure (.full delta locals stack))

/-- Every tag either announces a frame, or is refused. -/
theorem announces_readTagged (s : Scope) (tag : UInt8) : Announces s tag (readTagged s tag) := by
  have hbyte := tag.toNat_lt
  have hlt : ∀ n : UInt8, tag < n ↔ tag.toNat < n.toNat := fun n => UInt8.lt_iff_toNat_lt
  have heq : ∀ n : UInt8, tag = n ↔ tag.toNat = n.toNat := fun n => UInt8.toNat_inj.symm
  simp only [readTagged, hlt, heq, UInt8.reduceToNat]
  split
  · next h => exact .same h
  split
  · next h h' => exact .oneItem (by omega) h'
  split
  · next h h' => exact .reserved (by omega) h'
  split
  · next h => exact .farOneItem h
  split
  · next h h' => exact .chop (by omega) h'
  split
  · next h => exact .farSame h
  split
  · next h h' => exact .append (by omega) h'
  · exact .full (by omega)

/-- The ranges do not overlap. -/
theorem Announces.readTagged_eq {tag : UInt8} {read : Reader Malformed (Frame String)}
    (h : Announces s tag read) : readTagged s tag = read := by
  have h' := announces_readTagged s tag
  generalize readTagged s tag = read' at h' ⊢
  cases h <;> cases h' <;> first | omega | rfl

/-- A distance below 64 leaves room for another 64. -/
theorem toNat_add_of_lt {delta : UInt16} (h : delta < 64) :
    (delta.toUInt8 + 64).toNat = delta.toNat + 64 := by
  obtain ⟨hlt, htag⟩ := toUInt8_of_lt h
  rw [UInt8.toNat_add, htag]
  exact Nat.mod_eq_of_lt (by show delta.toNat + 64 < 256; omega)

/-- Up to three local variables can be added to the tag. -/
theorem toNat_add_length {n : Nat} (h : n ≤ 3) : (251 + UInt8.ofNat n).toNat = 251 + n := by
  rw [UInt8.toNat_add, UInt8.toNat_ofNat_of_lt' (Nat.lt_of_le_of_lt h (by decide))]
  exact Nat.mod_eq_of_lt (by show 251 + n < 256; omega)

/-- Up to three local variables can be taken from the tag, and come back from it. -/
theorem toNat_sub_count {count : UInt8} (h : count ≤ 3) :
    (251 - count).toNat = 251 - count.toNat ∧ 251 - (251 - count) = count := by
  have hle := UInt8.le_iff_toNat_le.1 h
  simp only [← UInt8.toNat_inj, UInt8.toNat_sub, UInt8.reduceToNat] at hle ⊢
  omega

/-! ## What is written -/

section Types

variable {us : List (VerificationType Index)} {ts : List (VerificationType String)}
  {p : ConstantPool} (h : us.mapM (fun u => u.mapM p.className) = .ok ts)

include h

/-- There are as many types as before. -/
theorem length_of_mapM_types : ts.length = us.length :=
  (mapM_eq_ok_iff.1 h).length_eq.symm

/-- Types in a row are read from their bytes. -/
theorem reads_types (name : String) :
    List.Forall₂ (fun t s => Reads (VerificationType.read ⟨p, name⟩) s t) ts
    (us.map (·.bytes)) := by
  rw [List.forall₂_map_right_iff]
  exact (mapM_eq_ok_iff.1 h).flip.imp fun _ _ hu => VerificationType.reads_bytes hu name

end Types

/-- A frame is read from its bytes, if there is a tag for it and its slots lead to the classes. -/
theorem reads_bytes {p : ConstantPool} {u : Frame Index} (hregular : u.Regular)
    (h : u.mapM p.className = .ok frame) (name : String) :
    Reads (read ⟨p, name⟩) u.bytes frame := by
  cases u with
  | same delta =>
    cases h
    simp only [bytes]
    split
    · next hdelta =>
      obtain ⟨hlt, htag⟩ := toUInt8_of_lt hdelta
      have hback : delta.toUInt8.toUInt16 = delta := by
        rw [← UInt16.toNat_inj, UInt8.toNat_toUInt16, htag]
      -- The distance comes back from the tag alone.
      refine reads_tag ?_
      rw [(Announces.same (by omega)).readTagged_eq, hback]
      exact Reads.pure _
    · exact reads_tag (b := 251) (Reads.u16 _ delta).bind_pure
  | oneItem delta item =>
    obtain ⟨t, hitem, rfl⟩ := map_eq_ok_iff.1 h
    have hreads := VerificationType.reads_bytes hitem name
    simp only [bytes]
    split
    · next hdelta =>
      have hlt := (toUInt8_of_lt hdelta).1
      have hsum := toNat_add_of_lt hdelta
      have hback : (delta.toUInt8 + 64).toUInt16 - 64 = delta := by
        rw [← UInt16.toNat_inj, UInt16.toNat_sub, UInt8.toNat_toUInt16, hsum]
        show (65536 - 64 + (delta.toNat + 64)) % 65536 = delta.toNat
        omega
      refine reads_tag ?_
      rw [(Announces.oneItem (by omega) (by omega)).readTagged_eq, hback]
      exact hreads.bind_pure
    · exact reads_tag (b := 247) ((Reads.u16 _ delta).bind hreads.bind_pure)
  | chop delta count =>
    cases h
    have hlow := UInt8.le_iff_toNat_le.1 hregular.1
    have hhigh := UInt8.le_iff_toNat_le.1 hregular.2
    obtain ⟨htag, hback⟩ := toNat_sub_count hregular.2
    simp only [UInt8.reduceToNat] at hlow hhigh
    refine reads_tag ?_
    rw [(Announces.chop (by omega) (by omega)).readTagged_eq, hback]
    exact (Reads.u16 _ delta).bind_pure
  | append delta locals =>
    obtain ⟨ts, hts, rfl⟩ := map_eq_ok_iff.1 h
    obtain ⟨hlow, hhigh⟩ := hregular
    have htag := toNat_add_length hhigh
    refine reads_tag ?_
    rw [(Announces.append (by omega) (by omega)).readTagged_eq, htag, Nat.add_sub_cancel_left,
      List.flatMap_def, ← length_of_mapM_types hts]
    exact (Reads.u16 _ delta).bind (Reads.times (reads_types hts name)).bind_pure
  | full delta locals stack =>
    obtain ⟨ts, hts, h⟩ := bind_eq_ok_iff.1 h
    obtain ⟨vs, hvs, rfl⟩ := map_eq_ok_iff.1 h
    obtain ⟨hlocals, hstack⟩ := hregular
    rw [← length_of_mapM_types hts] at hlocals
    rw [← length_of_mapM_types hvs] at hstack
    refine reads_tag (b := 255) ?_
    rw [Bytes.counted, Bytes.counted, List.flatMap_def, List.flatMap_def,
      ← length_of_mapM_types hts, ← length_of_mapM_types hvs]
    refine (Reads.u16 _ delta).bind ((Reads.counted hlocals (reads_types hts name)).bind ?_)
    exact (Reads.counted hstack (reads_types hvs name)).bind_pure

/-- A frame has as many bytes as its size says. -/
theorem length_bytes (u : Frame Index) : u.bytes.length = u.size := by
  have htypes : ∀ us : List (VerificationType Index),
      us.map (fun u => u.bytes.length) = us.map (·.size) :=
    fun us => List.map_congr_left fun u _ => u.length_bytes
  cases u with
  | same delta =>
    simp only [bytes, size]
    split <;> rfl
  | oneItem delta item =>
    simp only [bytes, size, List.length_append, item.length_bytes]
    split <;> rfl
  | chop delta count => rfl
  | append delta locals =>
    simp only [bytes, size, List.length_cons, List.length_append, List.length_flatMap, htypes,
      Bytes.length_ofUInt16]
    omega
  | full delta locals stack =>
    simp only [bytes, size, List.length_cons, List.length_append, List.length_flatMap, htypes,
      Bytes.length_ofUInt16, Bytes.counted, Bytes.count]
    omega

/-- Looking up the classes of a frame changes neither its size nor whether there is a tag for it. -/
theorem shape_of_mapM {ε κ ν : Type} {f : κ → Except ε ν} {u : Frame κ} {v : Frame ν}
    (h : u.mapM f = .ok v) : v.size = u.size ∧ (v.Regular ↔ u.Regular) := by
  have htypes : ∀ {us : List (VerificationType κ)} {ts : List (VerificationType ν)},
      us.mapM (fun u => u.mapM f) = .ok ts →
        ts.map (·.size) = us.map (·.size) ∧ ts.length = us.length := by
    intro us ts h
    have hsame := mapM_eq_ok_iff.1 h
    exact ⟨(map_eq_map_of_forall₂
      (hsame.imp fun _ _ hu => (VerificationType.size_of_mapM hu).symm)).symm,
      hsame.length_eq.symm⟩
  cases u with
  | same delta =>
    cases h
    exact ⟨rfl, .rfl⟩
  | oneItem delta item =>
    obtain ⟨t, hitem, rfl⟩ := map_eq_ok_iff.1 h
    exact ⟨by rw [size, size, VerificationType.size_of_mapM hitem], .rfl⟩
  | chop delta count =>
    cases h
    exact ⟨rfl, .rfl⟩
  | append delta locals =>
    obtain ⟨ts, hts, rfl⟩ := map_eq_ok_iff.1 h
    obtain ⟨hsizes, hlength⟩ := htypes hts
    exact ⟨by rw [size, size, hsizes], by rw [Regular, Regular, hlength]⟩
  | full delta locals stack =>
    obtain ⟨ts, hts, h⟩ := bind_eq_ok_iff.1 h
    obtain ⟨vs, hvs, rfl⟩ := map_eq_ok_iff.1 h
    obtain ⟨hsizes, hlength⟩ := htypes hts
    obtain ⟨hsizes', hlength'⟩ := htypes hvs
    exact ⟨by rw [size, size, hsizes, hsizes'], by rw [Regular, Regular, hlength, hlength']⟩

/-- The slots of a frame lead to its classes from then on. -/
theorem writes_mapM (frame : Frame String) :
    Writes (frame.mapM className) frame.texts fun p u => u.mapM p.className = .ok frame := by
  have htypes : ∀ ts : List (VerificationType String),
      Writes (ts.mapM fun t => t.mapM className) (ts.flatMap VerificationType.texts) fun p us =>
        us.mapM (fun u => u.mapM p.className) = .ok ts :=
    fun ts => (Writes.mapM fun t _ => t.writes_mapM).mono fun p us h => mapM_eq_ok_iff.2 h.flip
  cases frame with
  | same delta => exact Writes.pure fun _ => rfl
  | oneItem delta item => exact item.writes_mapM.map fun p u hu => map_eq_ok_iff.2 ⟨item, hu, rfl⟩
  | chop delta count => exact Writes.pure fun _ => rfl
  | append delta locals =>
    exact (htypes locals).map fun p us hus => map_eq_ok_iff.2 ⟨locals, hus, rfl⟩
  | full delta locals stack =>
    refine (htypes locals).bind fun us => (htypes stack).map fun p vs hvs hus => ?_
    exact bind_eq_ok_iff.2 ⟨locals, hus, map_eq_ok_iff.2 ⟨stack, hvs, rfl⟩⟩

/-- A frame is written as bytes that are read as that frame, if there is a tag for it. -/
theorem writes (frame : Frame String) :
    Writes (frame.mapM className) frame.texts fun p u => u.bytes.length = frame.size ∧
      (frame.Regular → ∀ name, Reads (read ⟨p, name⟩) u.bytes frame) := by
  refine frame.writes_mapM.mono fun p u hu => ?_
  obtain ⟨hsize, hregular⟩ := shape_of_mapM hu
  exact ⟨by rw [length_bytes, hsize], fun h => reads_bytes (hregular.1 h) hu⟩

/-! ## What is read -/

/-- As many bytes are taken for types in a row as are written for them. -/
theorem sum_size_of_forall₂ {ts : List (VerificationType String)} {ns : List Nat}
    (h : List.Forall₂ (fun t n => t.size = n) ts ns) : (ts.map (·.size)).sum = ns.sum := by
  rw [map_eq_map_of_forall₂ (g := id) h, List.map_id]

/-- A frame that is announced by its tag is regular, and no larger than what is read. -/
theorem Announces.yields {tag : UInt8} {read : Reader Malformed (Frame String)}
    (h : Announces s tag read) : Yields read fun frame n => frame.Regular ∧ frame.size ≤ 1 + n := by
  have htype := VerificationType.yields_read s
  have hdelta := Yields.u16 s.short
  cases h with
  -- Where the tag tells the distance, the frame takes no more than that byte for it.
  | same h =>
    have hnear : tag.toUInt16 < 64 := by
      rw [UInt16.lt_iff_toNat_lt, UInt8.toNat_toUInt16]
      exact h
    refine Yields.pure ⟨trivial, ?_⟩
    rw [size, if_pos hnear]
  | oneItem h h' =>
    have hnear : tag.toUInt16 - 64 < 64 := by
      rw [UInt16.lt_iff_toNat_lt, UInt16.toNat_sub, UInt8.toNat_toUInt16]
      show (65536 - 64 + tag.toNat) % 65536 < 64
      omega
    refine htype.bind fun item n hitem => Yields.pure ⟨trivial, ?_⟩
    rw [size, if_pos hnear, hitem]
    exact Nat.le_refl _
  | reserved => exact Yields.throw
  | farOneItem =>
    refine hdelta.bind fun delta n hn => htype.bind fun item k hk => Yields.pure ⟨trivial, ?_⟩
    simp only [size]
    split <;> omega
  -- The tag tells how many locals go, and from these tags it is one to three.
  | chop h h' =>
    have hcount : (251 - tag).toNat = 251 - tag.toNat := by
      rw [UInt8.toNat_sub]
      show (256 - tag.toNat + 251) % 256 = 251 - tag.toNat
      omega
    refine hdelta.bind fun delta n hn => Yields.pure ⟨⟨?_, ?_⟩, ?_⟩
    · rw [UInt8.le_iff_toNat_le, hcount]
      show 1 ≤ 251 - tag.toNat
      omega
    · rw [UInt8.le_iff_toNat_le, hcount]
      show 251 - tag.toNat ≤ 3
      omega
    · rw [size]
      omega
  | farSame =>
    refine hdelta.bind fun delta n hn => Yields.pure ⟨trivial, ?_⟩
    simp only [size]
    split <;> omega
  | append h h' =>
    refine hdelta.bind fun delta n hn => (htype.times _).bind fun locals k hlocals => ?_
    obtain ⟨hlength, ns, hns, rfl⟩ := hlocals
    refine Yields.pure ⟨?_, ?_⟩
    · show 1 ≤ locals.length ∧ locals.length ≤ 3
      omega
    · simp only [size, sum_size_of_forall₂ hns]
      omega
  | full =>
    refine hdelta.bind fun delta n hn => htype.counted.bind fun locals k hlocals => ?_
    refine htype.counted.bind fun stack l hstack => ?_
    obtain ⟨hlocals, ns, hns, rfl⟩ := hlocals
    obtain ⟨hstack, ks, hks, rfl⟩ := hstack
    refine Yields.pure ⟨⟨hlocals, hstack⟩, ?_⟩
    simp only [size, sum_size_of_forall₂ hns, sum_size_of_forall₂ hks]
    omega

/-- There is a tag for every frame that is read, and its shortest form is no longer than the one
that is read. -/
theorem yields_read (s : Scope) :
    Yields (Frame.read s) fun frame n => frame.Regular ∧ frame.size ≤ n := by
  refine (Yields.u8 s.short).bind fun tag n hn => ?_
  subst hn
  exact (announces_readTagged s tag).yields

end Frame

end Crosswalk
