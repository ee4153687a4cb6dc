import Crosswalk.Proofs.ClassTree.Bare
import Crosswalk.Proofs.Provider.Failures
import Crosswalk.Proofs.Renaming.Lookups

/-!
# Classes that are ready

The bytes of a class are made once, by the first request that needs them, and kept: a request keeps
all classes that are ready, and what it adds has been encoded from a class that it showed to the
renamer (`Request.keeps`). A table of names learns supertypes from the classes it is shown, but its
names stay (`Provider.sameNames_asked`).
-/

namespace Crosswalk

open Provider

variable {σ ρ : Type} [ModSource σ] [Renamer ρ]

namespace Request

/-! ## The classes that are ready -/

/-- A request keeps the settings, the classes that are ready, and a source that reading does not
change. -/
structure Keeps (p q : Provider σ ρ) : Prop where
  source : ModSource.Steady p.source → q.source = p.source
  settings : q.settings = p.settings
  classes : ∀ (name : ClassName) (contents : Bytes), p.classes[name]? = some contents →
    q.classes[name]? = some contents
  made : ∀ (name : ClassName) (contents : Bytes), name ∉ p.classes →
    q.classes[name]? = some contents → ∃ c, p.showing? name = some c ∧
    encode (p.served c) = .ok contents

/-- A request keeps what is ready and what is in place. -/
theorem keeps (request : Request) (p : Provider σ ρ) : Keeps p (request.after p) := by
  have hsettings := (request.step p).settings
  have hsame : ∀ q : Provider σ ρ, q.classes = p.classes →
      ∀ (name : ClassName) (contents : Bytes), name ∉ p.classes →
        q.classes[name]? = some contents → ∃ c, p.showing? name = some c ∧
        encode (p.served c) = .ok contents := by
    intro q hclasses name contents hfresh hname
    rw [hclasses, Std.HashMap.getElem?_eq_none hfresh] at hname
    cases hname
  have hanswers := request.answers p
  rw [after] at hsettings ⊢
  generalize request.perform.run p = outcome at hanswers hsettings
  obtain ⟨r, q⟩ := outcome
  -- Only a request whose class finds room in a pool makes a class ready, and only that one.
  cases hanswers with
  | idle hshowing haside hfault =>
    exact ⟨haside.source, hsettings, fun _ _ h => haside.classes ▸ h, hsame q haside.classes⟩
  | overflow hshowing hencode haside =>
    exact ⟨haside.source, hsettings, fun _ _ h => haside.classes ▸ h, hsame q haside.classes⟩
  | @ready _ _ name c contents hshowing hencode haside hfault =>
    obtain ⟨hclass, hfresh⟩ := not_mem_of_showing? hshowing
    refine ⟨haside.source, hsettings, fun name' contents' h => ?_, fun name' contents' hnew h => ?_⟩
    · have hne : name ≠ name' := by
        rintro rfl
        rw [Std.HashMap.getElem?_eq_none hfresh] at h
        cases h
      rw [haside.classes, Std.HashMap.getElem?_insert]
      simpa [hne] using h
    · rw [haside.classes, Std.HashMap.getElem?_insert] at h
      split at h
      · next hname =>
        have hname : name = name' := by simpa using hname
        subst hname
        cases h
        exact ⟨c, hclass, hencode⟩
      · rw [Std.HashMap.getElem?_eq_none hnew] at h
        cases h

/-- A class that is asked for is ready afterwards if there is room for it. -/
theorem classes_after {p : Provider σ ρ} {name : ClassName} {c : ClassTree} {contents : Bytes}
    (hshowing : p.showing? name = some c) (hencode : encode (p.served c) = .ok contents) :
    ((classBytes name).after p).classes[name]? = some contents := by
  have hanswers := (classBytes name).answers p
  have hasked : (classBytes name).showing? p = some (name, c) := by rw [showing?, hshowing]; rfl
  rw [after]
  generalize (classBytes name).perform.run p = outcome at hanswers
  obtain ⟨r, q⟩ := outcome
  cases hanswers with
  | idle hnone haside hfault => cases hnone.symm.trans hasked
  | overflow hsome hfault haside =>
    cases hsome.symm.trans hasked
    cases hfault.symm.trans hencode
  | ready hsome hmade haside hfault =>
    cases hsome.symm.trans hasked
    cases hmade.symm.trans hencode
    rw [haside.classes]
    exact Std.HashMap.getElem?_insert_self

end Request

namespace Provider

/-! ## Requests in a row -/

/-- A provider that has been asked in order. -/
def asked (requests : List Request) (p : Provider σ ρ) : Provider σ ρ :=
  Event.afterAll (requests.map .asked) p

/-- A class that is ready stays as it is. -/
theorem classes_asked (requests : List Request) {p : Provider σ ρ} {name : ClassName}
    {contents : Bytes} (h : p.classes[name]? = some contents) :
    (asked requests p).classes[name]? = some contents := by
  induction requests generalizing p with
  | nil => exact h
  | cons request rest ih => exact ih ((request.keeps p).classes name contents h)

/-- Classes that are shown to a table do not change its names. -/
theorem sameNames_shown (shown : List Showing) (t : NameTable) :
    (shown.foldl (fun t e => Renamer.learn t e.tree) t).SameNames t := by
  induction shown generalizing t with
  | nil => exact .refl t
  | cons showing rest ih =>
    exact (ih (Renamer.learn t showing.tree)).trans
      ((NameTable.SameNames.refl t).learn showing.tree)

/-- Requests do not change under which names a table goes. -/
theorem sameNames_asked (requests : List Request) (p : Provider σ NameTable) :
    (asked requests p).renamer.SameNames p.renamer := by
  rw [asked, Event.renamer_afterAll]
  exact sameNames_shown _ _

/-! ## A class and its super class -/

/-- A mod of a class `A`, which calls its method `m`, and its super class `B`, which extends `G`. -/
def familyMod : MemorySource :=
  ⟨[("A.class", ClassTree.callingBytes), ("B.class", ClassTree.superBytes)]⟩

/-- The method has a new name in `G`. -/
def familyNames : NameTable :=
  NameTable.empty.insertMethod ⟨"G", "m", "()V"⟩ "n"

/-- A provider of that mod, which has served nothing yet. -/
def family : Provider MemorySource NameTable :=
  start (.standard "tmp") familyMod familyNames .empty #[]

/-- Both classes can be read, whatever the files are. -/
theorem class?_familyMod {fs : FileSystem} :
    ModSource.class? fs familyMod (.normalize "A") = some (.calling "m") ∧
      ModSource.class? fs familyMod (.normalize "B") = some ClassTree.superClass := by
  have hA : (ClassName.normalize "A").filePath = "A.class" := by decide
  have hB : (ClassName.normalize "B").filePath = "B.class" := by decide
  refine ⟨MemorySource.class?_of_lookup ?_ ClassTree.decode_calling,
    MemorySource.class?_of_lookup ?_ ClassTree.decode_superClass⟩
  · rw [hA]
    rfl
  · rw [hB]
    rfl

/-- What the class calls is found in `G` if its super class is known, and not at all otherwise. -/
theorem method_family {t : NameTable} (hnames : t.SameNames familyNames)
    (hA : t.supertypes["A"]? = some ["B"]) :
    (t.supertypes["B"]? = none → t.method ⟨"A", "m", "()V"⟩ = "m") ∧
      (t.supertypes["B"]? = some ["G"] → t.method ⟨"A", "m", "()V"⟩ = "n") := by
  have hmethods : t.methods = (∅ : Std.HashMap MemberRef String).insert ⟨"G", "m", "()V"⟩ "n" :=
    hnames.methods
  have hmethod : t.method ⟨"A", "m", "()V"⟩ =
      (NameTable.nearest (fun owner => t.methods[MemberRef.mk owner "m" "()V"]?) t.supertypes
        ["A"]).getD "m" := by
    rw [NameTable.method, NameTable.inherited?, if_neg (by simp [hmethods])]
  have hansA : t.methods[MemberRef.mk "A" "m" "()V"]? = none := by simp [hmethods]
  have hansB : t.methods[MemberRef.mk "B" "m" "()V"]? = none := by simp [hmethods]
  have hansG : t.methods[MemberRef.mk "G" "m" "()V"]? = some "n" := by simp [hmethods]
  have hother : (t.supertypes.erase "A")["B"]? = t.supertypes["B"]? := by
    simp [Std.HashMap.getElem?_erase]
  rw [hmethod, NameTable.nearest_of_known hansA hA, List.nil_append]
  constructor
  · intro hB
    rw [NameTable.nearest_of_unknown hansB (hother.trans hB), NameTable.nearest]
    rfl
  · intro hB
    rw [NameTable.nearest_of_known hansB (hother.trans hB), List.nil_append, NameTable.nearest]
    simp only [hansG]
    rfl

omit [ModSource σ] in
/-- The class is served with the name that its method gets from what is known by then. -/
theorem served_family {p : Provider σ NameTable}
    (hnames : p.renamer.SameNames familyNames) : p.served (.calling "m") =
      .calling ((Renamer.learn p.renamer (.calling "m")).method ⟨"A", "m", "()V"⟩) := by
  have hclasses : p.renamer.classes = (∅ : Std.HashMap String String) := hnames.classes
  have htype : ∀ name, (Renamer.learn p.renamer (.calling "m")).type name = name := by
    intro name
    have hnone :
        ∀ name' : String, (Renamer.learn p.renamer (.calling "m")).classes[name']? = none := by
      intro name'
      show p.renamer.classes[name']? = none
      simp [hclasses]
    rw [NameTable.type]
    simp only [hnone]
    split <;> rfl
  rw [served, ClassTree.rename_calling htype, ClassTree.calling, ClassTree.widen_bare]
  rfl

/-- A provider that is asked for the class before its super class makes it as it is. -/
theorem ready_family {p : Provider σ NameTable} (hrenamer : p.renamer = familyNames)
    (hshowing : p.showing? (.normalize "A") = some (.calling "m")) :
    ((Request.classBytes (.normalize "A")).after p).classes[ClassName.normalize "A"]? =
      some ClassTree.callingBytes := by
  have hnames : p.renamer.SameNames familyNames := hrenamer ▸ .refl _
  refine Request.classes_after hshowing ?_
  have hA : (Renamer.learn p.renamer (.calling "m")).supertypes["A"]? = some ["B"] :=
    Std.HashMap.getElem?_insert_self
  have hB : (Renamer.learn p.renamer (.calling "m")).supertypes["B"]? = none := by
    show (p.renamer.supertypes.insert "A" ["B"])["B"]? = none
    simp [hrenamer, familyNames, NameTable.insertMethod, NameTable.empty]
  rw [served_family hnames, (method_family (hnames.learn _) hA).1 hB]
  exact ClassTree.encode_calling

/-- The class is ready, with its own bytes. -/
theorem classes_after_family :
    ((Request.classBytes (.normalize "A")).after family).classes[ClassName.normalize "A"]? =
      some ClassTree.callingBytes :=
  ready_family rfl ((if_neg (by simp [family, start])).trans class?_familyMod.1)

end Provider

end Crosswalk
