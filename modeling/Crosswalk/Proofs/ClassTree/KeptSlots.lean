import Crosswalk.Proofs.ClassTree.Blank
import Crosswalk.Proofs.ClassTree.Sizes

/-!
# What kept slots lead to

Most slots are replaced by what they lead to when a class is read, and those that are kept should
lead to an entry of the right kind as well (`ClassTree.Resolves`). For the entries of the pool that
point at another one this is seen to, but for the kinds of method handles. What handlers catch and
what annotations hold may be anything: once a class is accepted, it is also accepted with any other
slots in these places (`ClassTree.kept_slots`).
-/

namespace Crosswalk

/-! ## The right kinds -/

/-- Handles that read or write a field. -/
def HandleKind.onField : HandleKind → Bool
  | getField | getStatic | putField | putStatic => true
  | invokeVirtual | invokeStatic | invokeSpecial | newInvokeSpecial | invokeInterface => false

/-- The entries that a value of an annotation stands for, by its tag: texts for `s`, integers for
one of `BCISZ`, and numbers of the other three types for `J`, `F` and `D`. -/
def ElementValue.suits (tag : UInt8) : Entry → Bool
  | .utf8 _ | .rawUtf8 _ => tag = 115
  | .integer _ => tag = 66 || tag = 67 || tag = 73 || tag = 83 || tag = 90
  | .long _ => tag = 74
  | .float _ => tag = 70
  | .double _ => tag = 68
  | _ => false

/-- What an entry points at by slot is there, and of the right kind. -/
def EntryPool.Resolves (es : EntryPool) : Entry → Prop
  | .rawString text => ∃ body, es.Has text (.rawUtf8 body)
  | .methodHandle kind member =>
    if kind.onField then ∃ m, es.Has member (.fieldRef m)
    else ∃ m ofInterface, es.Has member (.methodRef m ofInterface)
  | _ => True

namespace ClassTree

/-- The handlers of all methods. -/
def handlers (c : ClassTree) : List Handler :=
  c.methods.flatMap fun m => m.code.toList.flatMap Code.handlers

/-- The annotations of the class and its members. -/
def annotations (c : ClassTree) : List Annotation :=
  c.metadatas.flatMap fun m => m.visible ++ m.invisible

/-- Every handler catches a class, or everything. -/
def CatchesClasses (c : ClassTree) : Prop :=
  ∀ h ∈ c.handlers, h.caught = 0 ∨ ∃ name, c.constants.Has h.caught (.className name)

/-- Every value of an annotation that is kept by slot is a constant of its type. -/
def ValuesSuit (c : ClassTree) : Prop :=
  ∀ a ∈ c.annotations, ∀ const ∈ a.consts,
    ∃ e, c.constants.Has const.2 e ∧ ElementValue.suits const.1 e = true

/-- Handles on fields point at fields, and no others do. -/
def KindsSuit (c : ClassTree) : Prop :=
  ∀ item ∈ c.constants.toList, ∀ kind member, item.2 = .methodHandle kind member →
    (kind.onField = true ↔ ∃ m, c.constants.Has member (.fieldRef m))

/-- Every slot that is kept leads to an entry of the right kind. -/
structure Resolves (c : ClassTree) : Prop where
  caught : c.CatchesClasses
  values : c.ValuesSuit
  entries : ∀ item ∈ c.constants.toList, c.constants.Resolves item.2

end ClassTree

/-! ## What is seen to -/

namespace EntryPool

variable {es : EntryPool}

/-- A handle that points at a member is right if it is meant for a field just when the member is
one. -/
theorem resolves_methodHandle_iff {kind : HandleKind} {member : Index}
    (h : es.Anchors (.methodHandle kind member)) : es.Resolves (.methodHandle kind member) ↔
      (kind.onField = true ↔ ∃ m, es.Has member (.fieldRef m)) := by
  rw [Resolves]
  -- A slot has one entry, so that no member is both.
  have hone : ∀ m m' ofInterface, es.Has member (.fieldRef m) →
      ¬ es.Has member (.methodRef m' ofInterface) := by
    intro m m' ofInterface hfield hmethod
    cases Slots.Laid.unique es.laidOut hfield hmethod
  rcases h with hfield | ⟨m, ofInterface, hmethod⟩
  · have hno : ¬ ∃ m ofInterface, es.Has member (.methodRef m ofInterface) := by
      rintro ⟨m, ofInterface, hmethod⟩
      obtain ⟨m', hfield⟩ := hfield
      exact hone m' m ofInterface hfield hmethod
    by_cases hkind : kind.onField = true
    · rw [if_pos hkind]
      exact iff_of_true hfield (iff_of_true hkind hfield)
    · rw [if_neg hkind]
      exact iff_of_false hno fun hiff => hkind (hiff.2 hfield)
  · have hno : ¬ ∃ m, es.Has member (.fieldRef m) := by
      rintro ⟨m', hfield⟩
      exact hone m' m ofInterface hfield hmethod
    by_cases hkind : kind.onField = true
    · rw [if_pos hkind]
      exact iff_of_false hno fun hiff => hno (hiff.1 hkind)
    · rw [if_neg hkind]
      exact iff_of_true ⟨m, ofInterface, hmethod⟩ (iff_of_false hkind hno)

end EntryPool

namespace ClassTree

variable {c : ClassTree} {input : Bytes}

/-- In a class that is read, literals and handles of the pool point at texts and members. Whether
the slots that it keeps otherwise, and the kinds of its handles, are right is not looked at: if the
class fits, some bytes are read as the class with any others in their places. -/
theorem kept_slots (h : decode input = .ok c) :
    (∀ item ∈ c.constants.toList, c.constants.Anchors item.2) ∧
      (c.Resolves ↔ c.CatchesClasses ∧ c.ValuesSuit ∧ c.KindsSuit) ∧
      (c.Fits → ∀ c', c'.blank = c.blank → ∃ input', decode input' = .ok c') := by
  have hread := readable_of_decode h
  have hpool := hread.regular.constants
  have hentries : (∀ item ∈ c.constants.toList, c.constants.Resolves item.2) ↔ c.KindsSuit := by
    refine forall₂_congr fun item hitem => ?_
    have hanchors := hpool.anchors item hitem
    obtain ⟨slot, e⟩ := item
    cases e with
    | rawString text => exact iff_of_true hanchors fun _ _ hkind => nomatch hkind
    | methodHandle kind member =>
      rw [EntryPool.resolves_methodHandle_iff hanchors]
      constructor
      · rintro hsuits kind' member' ⟨⟩
        exact hsuits
      · exact fun hsuits => hsuits kind member rfl
    | _ => exact iff_of_true trivial fun _ _ hkind => nomatch hkind
  refine ⟨hpool.anchors, ?_, fun hfits c' hblank => ?_⟩
  · constructor
    · exact fun hresolves => ⟨hresolves.caught, hresolves.values, hentries.1 hresolves.entries⟩
    · rintro ⟨hcaught, hvalues, hkinds⟩
      exact ⟨hcaught, hvalues, hentries.2 hkinds⟩
  · have hread' : c'.Readable := by
      rw [← readable_blank, hblank]
      exact readable_blank.2 hread
    have hfits' : c'.Fits := by
      rw [← fits_blank, hblank]
      exact fits_blank.2 hfits
    exact hread'.exists_input hfits'

/-- A class with a handler, a text in an annotation and a handle on its method, which point at the
given slots or are of the given kind. -/
def pointing (caught text : Index) (kind : HandleKind) : ClassTree :=
  { bare "A" (some "B")
      (.ofList [.utf8 "A", .className "A", .utf8 "B", .className "B", .utf8 "m", .utf8 "()V",
        .nameAndType "m" "()V", .methodRef ⟨"A", "m", "()V"⟩ false, .methodHandle kind 8,
        .utf8 "Code", .utf8 "RuntimeVisibleAnnotations"]) with
    methods := [⟨.known _ 1, "m", "()V", ⟨none, [], [], []⟩,
      some
        { maxStack := 0
          maxLocals := 1
          bytecode := [177]
          handlers := [⟨0, 1, 0, caught⟩]
          frames := none
          locals := []
          localTypes := []
          attributes := [] }⟩]
    metadata := ⟨none, [.mk "()V" [.mk "m" (.const 115 text)]], [], []⟩ }

/-- The bytes of the class whose slots lead nowhere, and whose handle is meant for a field. -/
def danglingBytes : Bytes :=
  [0xCA, 0xFE, 0xBA, 0xBE, 0, 0, 0, 52, 0, 12, 1, 0, 1, 65, 7, 0, 1, 1, 0, 1, 66, 7, 0, 3,
    1, 0, 1, 109, 1, 0, 3, 40, 41, 86, 12, 0, 5, 0, 6, 10, 0, 2, 0, 7, 15, 1, 0, 8,
    1, 0, 4, 67, 111, 100, 101, 1, 0, 25, 82, 117, 110, 116, 105, 109, 101, 86, 105, 115, 105, 98,
    108, 101, 65, 110, 110, 111, 116, 97, 116, 105, 111, 110, 115,
    0, 0x21, 0, 2, 0, 4, 0, 0, 0, 0, 0, 1,
    0, 1, 0, 5, 0, 6, 0, 1, 0, 10, 0, 0, 0, 21, 0, 0, 0, 1, 0, 0, 0, 1, 177,
    0, 1, 0, 0, 0, 1, 0, 0, 0, 99, 0, 0,
    0, 1, 0, 11, 0, 0, 0, 11, 0, 1, 0, 6, 0, 1, 0, 5, 115, 0, 99]

/-- The file of that class. -/
def danglingFile : ClassFile :=
  { ClassFile.bare 2 4 (.ofList 1 [.utf8 "A", .className 1, .utf8 "B", .className 3, .utf8 "m",
      .utf8 "()V", .nameAndType 5 6, .methodRef 2 7 false, .methodHandle .getField 8, .utf8 "Code",
      .utf8 "RuntimeVisibleAnnotations"]) with
    methods := [⟨.known _ 1, 5, 6, [⟨10,
      [0, 0, 0, 1, 0, 0, 0, 1, 177, 0, 1, 0, 0, 0, 1, 0, 0, 0, 99, 0, 0]⟩]⟩]
    attributes := [⟨11, [0, 1, 0, 6, 0, 1, 0, 5, 115, 0, 99]⟩] }

/-- The bytes are those of the file. -/
theorem ofBytes_dangling : ClassFile.ofBytes danglingBytes = .ok danglingFile := by cbv

/-- The file is accepted though its slots lead nowhere. -/
theorem ofFile_dangling : ofFile danglingFile = .ok (pointing 99 99 .getField) := by cbv

theorem decode_dangling : decode danglingBytes = .ok (pointing 99 99 .getField) :=
  bind_eq_ok_iff.2 ⟨danglingFile, ofBytes_dangling, ofFile_dangling⟩

section Pointing

variable {caught text : Index} {kind : HandleKind}

theorem toList_pointing : (pointing caught text kind).constants.toList =
    [(1, .utf8 "A"), (2, .className "A"), (3, .utf8 "B"), (4, .className "B"), (5, .utf8 "m"),
      (6, .utf8 "()V"), (7, .nameAndType "m" "()V"), (8, .methodRef ⟨"A", "m", "()V"⟩ false),
      (9, .methodHandle kind 8), (10, .utf8 "Code"), (11, .utf8 "RuntimeVisibleAnnotations")] := rfl

/-- The class catches what its one handler does. -/
theorem catchesClasses_pointing : (pointing caught text kind).CatchesClasses ↔
    caught = 0 ∨ ∃ name, (pointing caught text kind).constants.Has caught (.className name) :=
  List.forall_mem_singleton

/-- There is one value, and it has to be a text. -/
theorem valuesSuit_pointing : (pointing caught text kind).ValuesSuit ↔
    ∃ e, (pointing caught text kind).constants.Has text e ∧ ElementValue.suits 115 e = true := by
  have hannotations : (pointing caught text kind).annotations =
      [.mk "()V" [.mk "m" (.const 115 text)]] := rfl
  have hconsts : Annotation.consts (.mk "()V" [.mk "m" (.const 115 text)]) = [(115, text)] := rfl
  unfold ValuesSuit
  rw [hannotations, List.forall_mem_singleton, hconsts, List.forall_mem_singleton]

/-- The handle points at a method. -/
theorem kindsSuit_pointing : (pointing caught text kind).KindsSuit ↔ kind.onField = false := by
  have hmethod : ¬ ∃ m, (pointing caught text kind).constants.Has 8 (.fieldRef m) := by
    rintro ⟨m, hm⟩
    rw [EntryPool.Has, toList_pointing] at hm
    simp at hm
  constructor
  · intro h
    have hhandle :
        (9, Entry.methodHandle kind 8) ∈ (pointing caught text kind).constants.toList := by
      simp [toList_pointing]
    have hkind := h _ hhandle kind 8 rfl
    simpa [hmethod] using hkind
  · rintro hkind ⟨slot, e⟩ hitem kind' member rfl
    rw [toList_pointing] at hitem
    obtain ⟨-, rfl, rfl⟩ : slot = 9 ∧ kind' = kind ∧ member = 8 := by simpa using hitem
    exact iff_of_false (by simp [hkind]) hmethod

/-- Without its slots it does not matter where they led. -/
theorem blank_pointing : (pointing caught text kind).blank = pointing 0 0 .getField := by
  have hconstants : (pointing caught text kind).constants.blank =
      (pointing 0 0 .getField).constants := by
    unfold pointing bare EntryPool.blank
    rw [EntryPool.map_ofList]
    rfl
  have hannotation : Annotation.blank (.mk "()V" [.mk "m" (.const 115 text)]) =
      .mk "()V" [.mk "m" (.const 115 0)] := by
    simp [Element.blankAll, Element.blank, ElementValue.blank, Annotation.blank]
  unfold blank
  rw [hconstants]
  simp [pointing, bare, MethodTree.blank, Metadata.blank, Code.blank, hannotation]

/-- Slots behind the pool lead nowhere, and a method is no field. -/
theorem accepted_dangling : decode danglingBytes = .ok (pointing 99 99 .getField) ∧
    ¬ (pointing 99 99 .getField).CatchesClasses ∧ ¬ (pointing 99 99 .getField).ValuesSuit ∧
      ¬ (pointing 99 99 .getField).KindsSuit ∧ ¬ (pointing 99 99 .getField).Resolves := by
  have hbehind : ∀ e, ¬ (pointing 99 99 .getField).constants.Has 99 e := by
    intro e he
    rw [EntryPool.Has, toList_pointing] at he
    simp at he
  have hcaught : ¬ (pointing 99 99 .getField).CatchesClasses := by
    rw [catchesClasses_pointing]
    rintro (hzero | ⟨name, hname⟩)
    · exact absurd hzero (by decide)
    · exact hbehind _ hname
  have hvalues : ¬ (pointing 99 99 .getField).ValuesSuit := by
    rw [valuesSuit_pointing]
    rintro ⟨e, he, -⟩
    exact hbehind e he
  have hkinds : ¬ (pointing 99 99 .getField).KindsSuit := by
    rw [kindsSuit_pointing]
    decide
  exact ⟨decode_dangling, hcaught, hvalues, hkinds, fun h => hcaught h.caught⟩

/-- The class is accepted with slots that lead where they should, too. -/
theorem kept_slots_dangling : decode danglingBytes = .ok (pointing 99 99 .getField) ∧
    (pointing 99 99 .getField).Fits ∧
      ∃ input, decode input = .ok (pointing 2 6 .invokeVirtual) ∧
        (pointing 2 6 .invokeVirtual).Resolves := by
  have hfits : (pointing 99 99 .getField).Fits := by
    have hbody : Annotation.bodySize [.mk "()V" [.mk "m" (.const 115 99)]] = 11 := rfl
    refine ⟨?_, ?_, ?_, ?_⟩
    · unfold Modified.Fits
      decide +kernel
    · simp [pointing, bare]
    · simp [pointing, bare, MethodTree.Fits, MethodTree.parts, MethodTree.PartFits, Code.Fits,
        Code.parts, Metadata.parts]
    · simp [pointing, bare, Metadata.Fits, Metadata.parts, Metadata.Part.Fits, hbody]
  obtain ⟨-, -, hany⟩ := kept_slots decode_dangling
  obtain ⟨input, hinput⟩ := hany hfits (pointing 2 6 .invokeVirtual)
    (blank_pointing.trans blank_pointing.symm)
  refine ⟨decode_dangling, hfits, input, hinput, (kept_slots hinput).2.1.2 ⟨?_, ?_, ?_⟩⟩
  · rw [catchesClasses_pointing]
    exact .inr ⟨"A", by simp [EntryPool.Has, toList_pointing]⟩
  · rw [valuesSuit_pointing]
    exact ⟨.utf8 "()V", by simp [EntryPool.Has, toList_pointing], by decide⟩
  · rw [kindsSuit_pointing]
    rfl

end Pointing

end ClassTree

end Crosswalk
