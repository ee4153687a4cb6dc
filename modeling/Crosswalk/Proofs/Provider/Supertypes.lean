import Crosswalk.Proofs.Provider.Ready
import Crosswalk.Proofs.Renaming.Linking

/-!
# What a class knows about itself

A class is shown to the renamer before it is renamed. So whatever a table of names has learned or
forgotten by then, it knows the direct supertypes of that class, and looks at them right behind the
class itself: a member of the class that has a new name there gets it, whichever requests were made
before (`Provider.own_supertypes_count`).
-/

namespace Crosswalk

/-! ## Direct supertypes -/

/-- A search that has an answer among the classes it starts with takes the first one. The supertypes
it comes across on the way stand behind all of them. -/
theorem NameTable.nearest_of_findSome? {answer : String → Option String}
    {supertypes : Std.HashMap String (List String)} {queue : List String} {new : String}
    (h : queue.findSome? answer = some new) : nearest answer supertypes queue = some new := by
  induction supertypes, queue using nearest.induct answer with
  | case1 supertypes => cases h
  | case2 supertypes name queue new' hanswer =>
    rw [List.findSome?_cons, hanswer] at h
    rw [nearest, hanswer]
    exact h
  | case3 supertypes name queue hanswer direct hknown ih =>
    rw [List.findSome?_cons, hanswer] at h
    have hqueue : queue.findSome? answer = some new := h
    rw [nearest_of_known hanswer hknown]
    refine ih ?_
    rw [List.findSome?_append, hqueue]
    rfl
  | case4 supertypes name queue hanswer hunknown ih =>
    rw [List.findSome?_cons, hanswer] at h
    rw [nearest_of_unknown hanswer hunknown]
    exact ih h

namespace ClassTree

/-- The new name that a member has in the class itself, else in its super class, else in the first
of its interfaces that has one for it. -/
def ownName? (c : ClassTree) (members : Std.HashMap MemberRef String) (name descriptor : String) :
    Option String :=
  (c.name :: c.supertypes).findSome? fun owner => members[MemberRef.mk owner name descriptor]?

end ClassTree

namespace NameTable

variable {t : NameTable} {c : ClassTree} {members : Std.HashMap MemberRef String}
  {name descriptor new : String}

/-- A table that has just been shown a class finds the names that the class has for its members. -/
theorem inherited?_learn (h : c.ownName? members name descriptor = some new) :
    (Renamer.learn t c).inherited? members (c.member name descriptor) = some new := by
  have hdirect : (Renamer.learn t c).supertypes[c.name]? = some c.supertypes :=
    Std.HashMap.getElem?_insert_self
  have hsome : ∃ owner, members[MemberRef.mk owner name descriptor]? = some new := by
    obtain ⟨owner, -, howner⟩ := List.exists_of_findSome?_eq_some h
    exact ⟨owner, howner⟩
  have hfilled : members.isEmpty = false := by
    obtain ⟨owner, howner⟩ := hsome
    rw [Std.HashMap.isEmpty_eq_false_iff_exists_mem]
    exact ⟨_, (Std.HashMap.getElem?_eq_some_iff.1 howner).1⟩
  rw [inherited?, hfilled, if_neg (by simp)]
  rw [ClassTree.ownName?, List.findSome?_cons] at h
  cases hanswer : members[MemberRef.mk c.name name descriptor]? with
  | some own =>
    rw [hanswer] at h
    rw [nearest]
    simp only [ClassTree.member, hanswer]
    exact h
  | none =>
    rw [hanswer] at h
    -- The class leads the queue, so that it leaves just its supertypes, whatever else is known.
    exact (nearest_of_known hanswer hdirect).trans (nearest_of_findSome? h)

/-- A field gets the name that its own class gives it. -/
theorem field_learn (h : c.ownName? t.fields name descriptor = some new) :
    (Renamer.learn t c).field (c.member name descriptor) = new := by
  have hfound := inherited?_learn (t := t) h
  rw [field]
  show ((Renamer.learn t c).inherited? t.fields _).getD _ = new
  rw [hfound]
  rfl

theorem method_learn (h : c.ownName? t.methods name descriptor = some new) :
    (Renamer.learn t c).method (c.member name descriptor) = new := by
  have hfound := inherited?_learn (t := t) h
  rw [method]
  show ((Renamer.learn t c).inherited? t.methods _).getD _ = new
  rw [hfound]
  rfl

end NameTable

/-! ## States -/

namespace Provider

variable {σ ρ : Type} [ModSource σ]

/-- What can become of a provider: requests are made, the files around it change, and classes are
shown to its renamer by others who share it. -/
inductive Reached [Renamer ρ] (first : Provider σ ρ) : Provider σ ρ → Prop
  | first : Reached first first
  | event {p : Provider σ ρ} (h : Reached first p) (event : Event σ) : Reached first (event.after p)
  | shown {p : Provider σ ρ} (h : Reached first p) (c : ClassTree) :
    Reached first { p with renamer := Renamer.learn p.renamer c }

/-- No table forgets a name. -/
theorem Reached.sameNames {first p : Provider σ NameTable} (h : Reached first p) :
    p.renamer.SameNames first.renamer := by
  induction h with
  | first => exact .refl _
  | event h event ih =>
    rw [(event.step _).renamer]
    exact (sameNames_shown _ _).trans ih
  | shown h c ih => exact ih.learn c

/-- A class that is shown has been read. -/
theorem exists_decode_of_showing? {p : Provider σ ρ} {name : ClassName} {c : ClassTree}
    (h : p.showing? name = some c) : ∃ raw, decode raw = .ok c := by
  rw [showing?] at h
  split at h
  · cases h
  · obtain ⟨-, raw, -, hdecode⟩ := ModSource.class?_eq_some_iff.1 h
    exact ⟨raw, hdecode⟩

end Provider

namespace ClassTree

/-- The other class is this one with new names, in which the members of the class itself are called
as its own names have it, where they are declared and where they are mentioned. -/
structure CalledByOwn (t : NameTable) (c renamed : ClassTree) : Prop where
  fields : ∀ (i : Nat) f new, c.fields[i]? = some f →
    c.ownName? t.fields f.name f.descriptor = some new →
      (renamed.fields[i]?).map FieldTree.name = some new
  methods : ∀ (i : Nat) m new, c.methods[i]? = some m →
    c.ownName? t.methods m.name m.descriptor = some new →
      (renamed.methods[i]?).map MethodTree.name = some new
  fieldRefs : ∀ slot m new, c.constants.find? slot = some (.fieldRef m) → m.owner = c.name →
    c.ownName? t.fields m.name m.descriptor = some new →
      ∃ m', renamed.constants.find? slot = some (.fieldRef m') ∧ m'.name = new
  methodRefs : ∀ slot m ofInterface new, c.constants.find? slot = some (.methodRef m ofInterface) →
    m.owner = c.name → c.ownName? t.methods m.name m.descriptor = some new →
      ∃ m', renamed.constants.find? slot = some (.methodRef m' ofInterface) ∧ m'.name = new

/-- A class gets its own names from a table that has just been shown it. -/
theorem calledByOwn_rename (c : ClassTree) (t : NameTable) :
    CalledByOwn t c (c.rename (Renamer.current (Renamer.learn t c))) := by
  have hslots : ∀ {slot e}, c.constants.find? slot = some e →
      (c.rename (Renamer.current (Renamer.learn t c))).constants.find? slot =
        some (e.rename (Renamer.current (Renamer.learn t c))) :=
    Extends.find?_rename ⟨rfl, List.prefix_rfl⟩
  constructor
  · intro i f new hf hnew
    simp only [ClassTree.rename, List.getElem?_map, hf, Option.map_some]
    exact congrArg some (NameTable.field_learn hnew)
  · intro i m new hm hnew
    simp only [ClassTree.rename, List.getElem?_map, hm, Option.map_some]
    exact congrArg some (NameTable.method_learn hnew)
  · rintro slot ⟨owner, name, descriptor⟩ new hm rfl hnew
    exact ⟨_, hslots hm, NameTable.field_learn hnew⟩
  · rintro slot ⟨owner, name, descriptor⟩ ofInterface new hm rfl hnew
    exact ⟨_, hslots hm, NameTable.method_learn hnew⟩

/-- Patches leave names alone. -/
theorem CalledByOwn.widen {t : NameTable} {c renamed : ClassTree} (h : CalledByOwn t c renamed)
    (s : Settings) : CalledByOwn t c (renamed.widen s) := by
  obtain ⟨methods, hwiden, hmethods⟩ := renamed.widen_eq s
  rw [hwiden]
  refine ⟨h.fields, fun i m new hm hnew => ?_, h.fieldRefs, h.methodRefs⟩
  have hnames : methods.map MethodTree.name = renamed.methods.map MethodTree.name := by
    refine (map_eq_map_of_forall₂ (hmethods.imp fun m m' h => ?_)).symm
    obtain ⟨access, rfl⟩ := h
    rfl
  rw [← List.getElem?_map, hnames, List.getElem?_map]
  exact h.methods i m new hm hnew

/-- Tables with the same names have the same names for the members of a class. -/
theorem CalledByOwn.of_sameNames {t t' : NameTable} {c renamed : ClassTree}
    (h : CalledByOwn t c renamed) (hnames : t.SameNames t') : CalledByOwn t' c renamed where
  fields := hnames.fields ▸ h.fields
  methods := hnames.methods ▸ h.methods
  fieldRefs := hnames.fields ▸ h.fieldRefs
  methodRefs := hnames.methods ▸ h.methodRefs

end ClassTree

namespace Provider

variable {σ : Type} [ModSource σ]

/-- Whatever has become of a provider, a class that it shows to its table of names gets the names
that its members have in the class itself or in one of its direct supertypes, the first one that has
a name counting. What is answered for the class are the bytes of just this, if there is room for
it. -/
theorem own_supertypes_count {settings : Settings} {source : σ} {t : NameTable}
    {files : FileSystem} {log : Array Record} {p : Provider σ NameTable}
    (hp : Reached (start settings source t files log) p) {name : ClassName} {c : ClassTree}
    (hshowing : p.showing? name = some c) :
    c.CalledByOwn t (p.served c) ∧ ((classBytes name).run p).1 =
      ((encode (p.served c)).map some).mapError (ServeFault.overflow name) := by
  -- The names are those of the table as it is by now, which are still those of the first one.
  have hown := ClassTree.calledByOwn_rename c p.renamer
  exact ⟨(hown.widen p.settings).of_sameNames hp.sameNames, answer_of_showing? hshowing⟩

/-- A table with a name for a method in `B` and another one in `G`. -/
def rivalNames : NameTable :=
  (NameTable.empty.insertMethod ⟨"G", "m", "()V"⟩ "x").insertMethod ⟨"B", "m", "()V"⟩ "n"

/-- The class `A` as it was before, when it extended `G`. -/
def formerClass : ClassTree :=
  .bare "A" (some "G") (.ofList [])

/-- A provider of the class `A`, which extends `B` now. Its table has seen the class as it was. -/
def misled : Provider MemorySource NameTable :=
  { start (.standard "tmp") familyMod rivalNames .empty #[] with
    renamer := Renamer.learn rivalNames formerClass }

/-- The method that the class calls has its name from `B`. -/
theorem own_supertypes_count_misled :
    Reached (start (.standard "tmp") familyMod rivalNames .empty #[]) misled ∧
      misled.showing? (.normalize "A") = some (.calling "m") ∧
      (ClassTree.calling "m").ownName? rivalNames.methods "m" "()V" = some "n" ∧
      ∃ m', (misled.served (.calling "m")).constants.find? 8 = some (.methodRef m' false) ∧
        m'.name = "n" := by
  have hreached : Reached (start (.standard "tmp") familyMod rivalNames .empty #[]) misled :=
    .shown .first formerClass
  have hshowing : misled.showing? (.normalize "A") = some (.calling "m") := by
    rw [showing?, if_neg (by simp [misled, start])]
    exact class?_familyMod.1
  have hown : (ClassTree.calling "m").ownName? rivalNames.methods "m" "()V" = some "n" := by
    simp [ClassTree.ownName?, ClassTree.supertypes, ClassTree.calling, ClassTree.bare, rivalNames,
      NameTable.insertMethod, NameTable.empty, Std.HashMap.getElem?_insert]
  have hmention : (ClassTree.calling "m").constants.find? 8 =
      some (.methodRef ⟨"A", "m", "()V"⟩ false) := by cbv
  obtain ⟨hcalled, -⟩ := own_supertypes_count hreached hshowing
  exact ⟨hreached, hshowing, hown, hcalled.methodRefs 8 _ false "n" hmention rfl hown⟩

end Provider

end Crosswalk
