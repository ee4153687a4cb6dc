import Mathlib
import Crosswalk.Proofs.ClassTree.RoundTrip
import Crosswalk.Proofs.Pool.Calls
import Crosswalk.Proofs.Renaming.Shape

/-!
# The tags of frames

One byte tells the forms of a frame apart. A frame that could have been read has a tag of its own
kind, and reckoning the tag stays within the byte (`tagged_of_regular`); so frames in a row are read
back one by one, in whatever pool their slots lead to the classes (`readBack`). Reading, looking up
classes and renaming never lead to any other frame.
-/

namespace Crosswalk.Frame

open Reader (Reads)
open PoolBuilder (className Reaches seed)

/-! ## Tags -/

/-- The tag of a frame, reckoned without regard to what a byte can hold. -/
def tag {κ : Type} : Frame κ → Nat
  | same delta => if delta < 64 then delta.toNat else 251
  | oneItem delta _ => if delta < 64 then delta.toNat + 64 else 247
  | chop _ count => 251 - count.toNat
  | append _ locals => 251 + locals.length
  | full _ _ _ => 255

/-- The tags that frames of the same kind have. -/
def Owns {κ : Type} : Frame κ → Nat → Prop
  | same _, n => n < 64 ∨ n = 251
  | oneItem _ _, n => (64 ≤ n ∧ n < 128) ∨ n = 247
  | chop _ _, n => 248 ≤ n ∧ n ≤ 250
  | append _ _, n => 252 ≤ n ∧ n ≤ 254
  | full _ _ _, n => n = 255

/-- The first byte of a frame is its tag, which is one of its kind. -/
def Tagged (u : Frame Index) : Prop :=
  ∃ b rest, u.bytes = b :: rest ∧ b.toNat = u.tag ∧ u.Owns u.tag

/-- A frame whose numbers fit its form has the tag of its form. -/
theorem tagged_of_regular {u : Frame Index} (h : u.Regular) : u.Tagged := by
  cases u with
  | same delta =>
    by_cases hdelta : delta < 64
    · obtain ⟨hlt, htag⟩ := toUInt8_of_lt hdelta
      refine ⟨delta.toUInt8, [], by rw [bytes, if_pos hdelta], ?_⟩
      rw [tag, if_pos hdelta]
      exact ⟨htag, .inl hlt⟩
    · refine ⟨251, Bytes.ofUInt16 delta, by rw [bytes, if_neg hdelta], ?_⟩
      rw [tag, if_neg hdelta]
      exact ⟨rfl, .inr rfl⟩
  | oneItem delta item =>
    by_cases hdelta : delta < 64
    · have hlt := (toUInt8_of_lt hdelta).1
      refine ⟨delta.toUInt8 + 64, item.bytes, by rw [bytes, if_pos hdelta]; rfl, ?_⟩
      rw [tag, if_pos hdelta]
      exact ⟨toNat_add_of_lt hdelta, .inl ⟨by omega, by omega⟩⟩
    · refine ⟨247, Bytes.ofUInt16 delta ++ item.bytes, by rw [bytes, if_neg hdelta]; rfl, ?_⟩
      rw [tag, if_neg hdelta]
      exact ⟨rfl, .inr rfl⟩
  | chop delta count =>
    have hlow : 1 ≤ count.toNat := UInt8.le_iff_toNat_le.1 h.1
    have hhigh : count.toNat ≤ 3 := UInt8.le_iff_toNat_le.1 h.2
    refine ⟨251 - count, Bytes.ofUInt16 delta, rfl, (toNat_sub_count h.2).1, ?_, ?_⟩ <;>
      rw [tag] <;> omega
  | append delta locals =>
    obtain ⟨hlow, hhigh⟩ := h
    refine ⟨251 + UInt8.ofNat locals.length, _, rfl, toNat_add_length hhigh, ?_, ?_⟩ <;>
      rw [tag] <;> omega
  | full delta locals stack => exact ⟨255, _, rfl, rfl, rfl⟩

/-! ## Frames in a row -/

/-- The bytes of frames are read back as these frames. -/
structure ReadBack (p : ConstantPool) (us : List (Frame Index)) (frames : List (Frame String)) :
    Prop where
  /-- One after the other, they take their bytes and no more. -/
  times : ∀ name rest, Reader.times us.length (Frame.read ⟨p, name⟩) (us.flatMap bytes ++ rest) =
    .ok (frames, rest)
  /-- Behind their number they are read to the end, if two bytes hold the number. -/
  whole : ∀ name back, Scope.whole ⟨p, name⟩ (Scope.counted ⟨p, name⟩ (Frame.read ⟨p, name⟩))
    (Bytes.counted bytes us) = .ok back ↔ frames.length < 65536 ∧ back = frames

/-- A frame has a tag at least. -/
theorem bytes_ne_nil {u : Frame Index} (h : u.Regular) : u.bytes ≠ [] := by
  obtain ⟨b, rest, hbytes, -⟩ := tagged_of_regular h
  rw [hbytes]
  exact List.cons_ne_nil b rest

/-- Frames whose slots lead to the classes are read back. -/
theorem readBack {p : ConstantPool} {us : List (Frame Index)} {frames : List (Frame String)}
    (hregular : ∀ u ∈ us, u.Regular) (h : us.mapM (fun u => u.mapM p.className) = .ok frames) :
    ReadBack p us frames := by
  have hsame := mapM_eq_ok_iff.1 h
  have hreads : ∀ name, List.Forall₂ (fun frame s => Reads (Frame.read ⟨p, name⟩) s frame) frames
      (us.map bytes) := by
    intro name
    rw [List.forall₂_map_right_iff, List.forall₂_iff_zip]
    refine ⟨hsame.length_eq.symm, fun {frame u} hzip => ?_⟩
    have hu : u.mapM p.className = .ok frame :=
      (List.forall₂_iff_zip.1 hsame.flip).2 hzip
    exact reads_bytes (hregular u (List.of_mem_zip hzip).2) hu name
  refine ⟨fun name rest => ?_, fun name back => ?_⟩
  · rw [hsame.length_eq, List.flatMap_def]
    exact Reads.times (hreads name) rest
  · rw [Bytes.counted, hsame.length_eq, List.flatMap_def]
    refine Scope.whole_counted_eq_ok_iff (hreads name) fun s hs => ?_
    obtain ⟨u, hu, rfl⟩ := List.mem_map.1 hs
    exact bytes_ne_nil (hregular u hu)

/-- The slots that frames get lead to their classes in every pool that comes of the builder. -/
theorem mapM_className_of_built {b b' last : PoolBuilder} {frames : List (Frame String)}
    {us : List (Frame Index)} (hb : b.Coherent)
    (h : (frames.mapM fun (frame : Frame String) => frame.mapM className) b = .ok (us, b'))
    (hlast : Reaches b' last) :
    us.mapM (fun u => u.mapM last.constants.className) = .ok frames := by
  obtain ⟨hb', -, hslots⟩ := PoolBuilder.Writes.mapM (fun frame _ => frame.writes_mapM) b us b' h hb
  exact mapM_eq_ok_iff.2 (hslots last.constants fun i c _ hc => (hlast.grows hb').1 i c hc).flip

/-! ## Looking up classes -/

section Run

variable {σ ε κ ν : Type} {f : κ → StateT σ (Except ε) ν} {s s' : σ}

/-- There are as many types as before. -/
theorem length_of_run_mapM {us : List (VerificationType κ)} {vs : List (VerificationType ν)}
    (h : (us.mapM fun (u : VerificationType κ) => u.mapM f) s = .ok (vs, s')) :
    vs.length = us.length := by
  induction us generalizing s vs with
  | nil =>
    cases h
    rfl
  | cons u us ih =>
    rw [List.mapM_cons] at h
    obtain ⟨v, first, -, h⟩ := of_stateT_bind_eq_ok h
    obtain ⟨vs', second, hrest, h⟩ := of_stateT_bind_eq_ok h
    cases h
    rw [List.length_cons, List.length_cons, ih hrest]

/-- Whatever is done with the classes, there is a tag for the frame as there was before. -/
theorem regular_of_run_mapM {u : Frame κ} {v : Frame ν} (h : u.mapM f s = .ok (v, s')) :
    v.Regular ↔ u.Regular := by
  cases u with
  | same delta =>
    cases h
    exact .rfl
  | oneItem delta item =>
    obtain ⟨t, middle, -, h⟩ := of_stateT_bind_eq_ok h
    cases h
    exact .rfl
  | chop delta count =>
    cases h
    exact .rfl
  | append delta locals =>
    obtain ⟨vs, middle, hlocals, h⟩ := of_stateT_bind_eq_ok h
    cases h
    rw [Regular, Regular, length_of_run_mapM hlocals]
  | full delta locals stack =>
    obtain ⟨vs, middle, hlocals, h⟩ := of_stateT_bind_eq_ok h
    obtain ⟨ws, last, hstack, h⟩ := of_stateT_bind_eq_ok h
    cases h
    rw [Regular, Regular, length_of_run_mapM hlocals, length_of_run_mapM hstack]

end Run

/-! ## Frames of a class -/

/-- The frames of a body are regular if the class is. -/
theorem regular_of_code {c : ClassTree} (h : c.Regular) {m : MethodTree} (hm : m ∈ c.methods)
    {code : Code} (hcode : m.code = some code) {frames : List (Frame String)}
    (hframes : code.frames = some frames) : ∀ frame ∈ frames, frame.Regular := by
  have hbody : code.Regular :=
    (h.methods m hm).parts (.inr code) (by simp [MethodTree.parts, hcode])
  exact (hbody.parts (.frames frames) (by simp [Code.parts, hframes])).2

/-- Frames in a row are read back from their bytes, byte for byte, in every pool in which their
slots lead to the classes, such as the one that is in the end of a builder that has been seeded and
asked for them. Every frame that is read has a tag, and has one still when its classes have been
looked up; so the tag of every frame that is written for a class that has been read and renamed is
one of its kind. -/
theorem sequences_read_back :
    (∀ {p : ConstantPool} {us : List (Frame Index)} {frames : List (Frame String)},
      (∀ u ∈ us, u.Regular) → us.mapM (fun u => u.mapM p.className) = .ok frames →
        ReadBack p us frames) ∧
    (∀ {entries : EntryPool} {seeded b b' last : PoolBuilder} {frames : List (Frame String)}
        {us : List (Frame Index)}, seed entries .empty = .ok ((), seeded) →
      Reaches seeded b → (∀ frame ∈ frames, frame.Regular) →
      (frames.mapM fun (frame : Frame String) => frame.mapM className) b = .ok (us, b') →
      Reaches b' last → ReadBack last.constants us frames) ∧
    (∀ {s : Scope} {input rest : Bytes} {frame : Frame String},
      Frame.read s input = .ok (frame, rest) → frame.Regular) ∧
    (∀ {σ ε κ ν : Type} {f : κ → StateT σ (Except ε) ν} {u : Frame κ} {v : Frame ν} {s s' : σ},
      u.mapM f s = .ok (v, s') → u.Regular → v.Regular) ∧
    ∀ {input : Bytes} {c : ClassTree}, decode input = .ok c → ∀ (r : Renaming),
      ∀ m ∈ (c.rename r).methods, ∀ code, m.code = some code →
        ∀ frames, code.frames = some frames → ∀ frame ∈ frames, frame.Regular ∧
          ∀ b u b', frame.mapM className b = .ok (u, b') → u.Tagged := by
  refine ⟨readBack, ?_, ?_, fun hrun => (regular_of_run_mapM hrun).2, ?_⟩
  · intro entries seeded b b' last frames us hseed hb hregular hrun hlast
    have hcoherent := (hb.maintained (PoolBuilder.bears_of_seed hseed)
      (PoolBuilder.entered_of_seed hseed)).1.coherent
    have hslots := mapM_className_of_built hcoherent hrun hlast
    refine readBack (fun u hu => ?_) hslots
    obtain ⟨frame, hframe, hmap⟩ := exists_of_forall₂_left (mapM_eq_ok_iff.1 hslots) hu
    exact (shape_of_mapM hmap).2.1 (hregular frame hframe)
  · intro s input rest frame hread
    exact (yields_read s input frame rest hread).2.1
  · intro input c h r m hm code hcode frames hframes frame hframe
    have hregular := regular_of_code ((ClassTree.regular_of_decode h).rename r) hm hcode hframes
      frame hframe
    exact ⟨hregular, fun b u b' hrun => tagged_of_regular ((regular_of_run_mapM hrun).2 hregular)⟩

/-- The bytes of a class `A` whose method has frames with tags at both ends of their ranges. -/
def framedBytes : Bytes :=
  [0xCA, 0xFE, 0xBA, 0xBE, 0, 0, 0, 52, 0, 7, 1, 0, 1, 65, 7, 0, 1, 1, 0, 1, 109, 1,
    0, 3, 40, 41, 86,
    1, 0, 4, 67, 111, 100, 101, 1, 0, 13, 83, 116, 97, 99, 107, 77, 97, 112, 84, 97, 98, 108, 101,
    0, 0x21, 0, 2, 0, 0, 0, 0, 0, 0, 0, 1,
    0, 1, 0, 3, 0, 4, 0, 1, 0, 5, 0, 0, 0, 32, 0, 1, 0, 1, 0, 0, 0, 1, 177, 0, 0,
    0, 1, 0, 6, 0, 0, 0, 13, 0, 4, 63, 127, 7, 0, 2, 251, 0, 64, 248, 255, 255, 0, 0]

/-- Those frames by slot. -/
def framedSlots : List (Frame Index) :=
  [.same 63, .oneItem 63 (.object 2), .same 64, .chop 65535 3]

/-- Those frames by name. -/
def framedNames : List (Frame String) :=
  [.same 63, .oneItem 63 (.object "A"), .same 64, .chop 65535 3]

/-- The class itself. -/
def framed : ClassTree where
  version := ⟨52, 0⟩
  access := .known _ 0x21
  name := "A"
  superName := none
  interfaces := []
  fields := []
  methods := [⟨.known _ 1, "m", "()V", ⟨none, [], [], []⟩,
    some
      { maxStack := 1
        maxLocals := 1
        bytecode := [177]
        handlers := []
        frames := some framedNames
        locals := []
        localTypes := []
        attributes := [] }⟩]
  metadata := ⟨none, [], [], []⟩
  constants := .ofList [.utf8 "A", .className "A", .utf8 "m", .utf8 "()V", .utf8 "Code",
    .utf8 "StackMapTable"]

/-- The first class of a pool gets the slot behind its name. -/
theorem className_of_empty (name : String) : ∃ b, className name .empty = .ok (2, b) := by
  have htext : PoolBuilder.text name .empty = .ok (1,
      { PoolBuilder.empty with
        constants := .ofList 1 [.utf8 name]
        texts := (∅ : Std.HashMap String Index).insert name 1 }) := by
    simp [PoolBuilder.text, PoolBuilder.empty, PoolBuilder.push, PoolBuilder.slotLimit,
      Constant.width, Slots.ofList, bind, Except.bind, pure, Except.pure]
  refine ⟨⟨.ofList 1 [.utf8 name, .className 1], (∅ : Std.HashMap String Index).insert name 1,
    (∅ : Std.HashMap Index Index).insert 1 2, ∅⟩, (PoolBuilder.bind_of_ok htext).trans ?_⟩
  simp [PoolBuilder.classAt, PoolBuilder.empty, PoolBuilder.push, PoolBuilder.slotLimit,
    Constant.width, Wide.width, Slots.ofList, bind, Except.bind, pure, Except.pure]

/-- The frames are read back from their slots, and a frame for which an empty pool is asked from the
slots that it gets; and those of the class are written with tags of their kinds. -/
theorem sequences_read_back_edges :
    ReadBack (.ofList 1 [.utf8 "A", .className 1]) framedSlots framedNames ∧
    (∃ us b, ReadBack (PoolBuilder.constants b) us [.append 64 [.object "A"]]) ∧
    (Frame.chop 65535 3 : Frame String).Regular ∧
    decode framedBytes = .ok framed ∧ ∀ frame ∈ framedNames, ∀ b u b',
      (frame.map Renaming.identity.classConstant).mapM className b = .ok (u, b') → u.Tagged := by
  obtain ⟨hreads, hbuilt, hread, -, hdecoded⟩ := sequences_read_back
  have hpool : framedSlots.mapM (fun u => u.mapM
      (ConstantPool.className (.ofList 1 [.utf8 "A", .className 1]))) = .ok framedNames := by cbv
  have hdecode : decode framedBytes = .ok framed := by cbv
  refine ⟨hreads ?_ hpool, ?_, ?_, hdecode, fun frame hframe => ?_⟩
  · simp [framedSlots, Regular]
  · obtain ⟨b, hclass⟩ := className_of_empty "A"
    have hmap :
        ([.append 64 [.object "A"]].mapM fun (frame : Frame String) => frame.mapM className) =
        (fun i => [.append 64 [.object i]]) <$> className "A" := by
      simp [List.mapM_cons, Frame.mapM, VerificationType.mapM]
    have hrun : ([.append 64 [.object "A"]].mapM fun (frame : Frame String) => frame.mapM className)
        .empty = .ok ([.append 64 [.object 2]], b) := by
      rw [hmap, map_eq_pure_bind]
      exact PoolBuilder.bind_of_ok hclass
    have hseed : seed (.ofList []) .empty = .ok ((), .empty) := rfl
    exact ⟨_, b, hbuilt hseed (.refl _) (by simp [Regular]) hrun (.refl _)⟩
  · have hchop : Frame.read ⟨Slots.startingAt 1, ""⟩ [248, 255, 255] = .ok (.chop 65535 3, []) := by
      cbv
    exact hread hchop
  · exact (hdecoded hdecode .identity _ List.mem_cons_self _ rfl _ rfl _
      (List.mem_map_of_mem hframe)).2

end Crosswalk.Frame
