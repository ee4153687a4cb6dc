import Crosswalk.Proofs.Slots.Layout
import Crosswalk.Renaming.NameTable
import Crosswalk.Renaming.Tree

/-!
# What a new name depends on

The new name of a member is looked for among the supertypes that are known by then. A search that
fails to find it in a class passes on to the supertypes of that class, so only what is known about
the classes it passes has a say in the outcome (`NameTable.nearest_congr`). A class with its new
names depends on the new names of the members it mentions or declares
(`ClassTree.rename_congr`), and so on nothing else than the classes that those searches pass
(`ClassTree.rename_eq_of_seenAlike`).
-/

namespace Crosswalk

namespace NameTable

/-! ## Searches -/

section

variable {answer : String → Option String}

/-- The classes that a search from a class passes: it has no answer for them, and comes to each
from one of its subclasses. -/
inductive Passes (answer : String → Option String)
    (supertypes : Std.HashMap String (List String)) (start : String) : String → Prop
  | start (hanswer : answer start = none) : Passes answer supertypes start start
  | supertype {name next : String} {direct : List String}
    (hpasses : Passes answer supertypes start name) (hdirect : supertypes[name]? = some direct)
    (hnext : next ∈ direct) (hanswer : answer next = none) : Passes answer supertypes start next

variable {supertypes supertypes' : Std.HashMap String (List String)} {start name : String}

/-- What a search passes behind a supertype, it passes behind the class itself. -/
theorem Passes.of_supertype {next : String} {direct : List String} (hanswer : answer start = none)
    (hdirect : supertypes[start]? = some direct) (hnext : next ∈ direct)
    (h : Passes answer supertypes next name) : Passes answer supertypes start name := by
  induction h with
  | start hanswer' => exact .supertype (.start hanswer) hdirect hnext hanswer'
  | supertype _ hdirect' hnext' hanswer' ih => exact .supertype ih hdirect' hnext' hanswer'

/-- Less is passed where less is known. -/
theorem Passes.of_erase {known : String}
    (h : Passes answer (supertypes.erase known) start name) :
    Passes answer supertypes start name := by
  induction h with
  | start hanswer => exact .start hanswer
  | supertype _ hdirect hnext hanswer ih =>
    rw [Std.HashMap.getElem?_erase] at hdirect
    split at hdirect
    · cases hdirect
    · exact .supertype ih hdirect hnext hanswer

/-- A search goes on to the supertypes of a class that is known. -/
theorem nearest_of_known {queue direct : List String} (hanswer : answer name = none)
    (hknown : supertypes[name]? = some direct) : nearest answer supertypes (name :: queue) =
      nearest answer (supertypes.erase name) (queue ++ direct) := by
  rw [nearest]
  simp only [hanswer]
  split
  · next direct' h =>
    cases hknown.symm.trans h
    rfl
  · next h => cases hknown.symm.trans h

/-- Nothing is to be learned from a class that is not known. -/
theorem nearest_of_unknown {queue : List String} (hanswer : answer name = none)
    (hunknown : supertypes[name]? = none) :
    nearest answer supertypes (name :: queue) = nearest answer supertypes queue := by
  rw [nearest]
  simp only [hanswer]
  split
  · next h => cases hunknown.symm.trans h
  · rfl

/-- A search answers the same wherever the same is known about the classes it passes. -/
theorem nearest_congr (supertypes supertypes' : Std.HashMap String (List String))
    (queue : List String)
    (h : ∀ start ∈ queue, ∀ name, Passes answer supertypes start name →
      supertypes[name]? = supertypes'[name]?) :
    nearest answer supertypes queue = nearest answer supertypes' queue := by
  induction supertypes, queue using nearest.induct answer generalizing supertypes' with
  | case1 supertypes => rw [nearest, nearest]
  | case2 supertypes name queue new hanswer => rw [nearest, nearest, hanswer]
  | case3 supertypes name queue hanswer direct hknown ih =>
    have hsame := h name List.mem_cons_self name (.start hanswer)
    have hknown' : supertypes'[name]? = some direct := hsame ▸ hknown
    rw [nearest_of_known hanswer hknown, nearest_of_known hanswer hknown']
    refine ih (supertypes'.erase name) fun start hstart other hpasses => ?_
    -- What is passed without the class is passed with it as well.
    have hother : supertypes[other]? = supertypes'[other]? := by
      rcases List.mem_append.1 hstart with hqueue | hdirect
      · exact h start (List.mem_cons_of_mem _ hqueue) other hpasses.of_erase
      · exact h name List.mem_cons_self other (hpasses.of_erase.of_supertype hanswer hknown hdirect)
    rw [Std.HashMap.getElem?_erase, Std.HashMap.getElem?_erase, hother]
  | case4 supertypes name queue hanswer hunknown ih =>
    have hsame := h name List.mem_cons_self name (.start hanswer)
    have hunknown' : supertypes'[name]? = none := hsame ▸ hunknown
    rw [nearest_of_unknown hanswer hunknown, nearest_of_unknown hanswer hunknown']
    exact ih supertypes' fun start hstart => h start (List.mem_cons_of_mem _ hstart)

end

/-! ## Names of members -/

/-- The same is known in both cases about the classes that a search for a member passes. -/
def Alike (members : Std.HashMap MemberRef String)
    (supertypes supertypes' : Std.HashMap String (List String)) (m : MemberRef) : Prop :=
  members.isEmpty = false → ∀ name,
    Passes (fun owner => members[MemberRef.mk owner m.name m.descriptor]?) supertypes m.owner name →
      supertypes[name]? = supertypes'[name]?

/-- The tables have the same names, whatever they know about supertypes. -/
structure SameNames (t t' : NameTable) : Prop where
  classes : t.classes = t'.classes
  fields : t.fields = t'.fields
  methods : t.methods = t'.methods

/-- A member is looked up alike where its supertypes are alike. -/
theorem inherited?_congr {t t' : NameTable} {members : Std.HashMap MemberRef String} {m : MemberRef}
    (h : Alike members t.supertypes t'.supertypes m) :
    t.inherited? members m = t'.inherited? members m := by
  rw [inherited?, inherited?]
  by_cases hempty : members.isEmpty = true
  · rw [if_pos hempty, if_pos hempty]
  · rw [if_neg hempty, if_neg hempty]
    refine nearest_congr _ _ _ fun start hstart name hpasses => ?_
    rw [List.mem_singleton] at hstart
    subst hstart
    exact h (by simpa using hempty) name hpasses

namespace SameNames

variable {t t' t'' : NameTable}

theorem refl (t : NameTable) : SameNames t t :=
  ⟨rfl, rfl, rfl⟩

theorem symm (h : SameNames t t') : SameNames t' t :=
  ⟨h.classes.symm, h.fields.symm, h.methods.symm⟩

theorem trans (h : SameNames t t') (h' : SameNames t' t'') : SameNames t t'' :=
  ⟨h.classes.trans h'.classes, h.fields.trans h'.fields, h.methods.trans h'.methods⟩

/-- A class that is shown to a table does not change its names. -/
theorem learn (h : SameNames t t') (c : ClassTree) : SameNames (Renamer.learn t c) t' :=
  ⟨h.classes, h.fields, h.methods⟩

/-- Types are among those names. -/
theorem type (h : SameNames t t') : t.type = t'.type := by
  funext name
  rw [NameTable.type, NameTable.type, h.classes]

end SameNames

end NameTable

/-! ## Names of a class -/

/-- The field that an entry is about. -/
def Entry.field? : Entry → Option MemberRef
  | fieldRef m => some m
  | _ => none

/-- The method that an entry is about. -/
def Entry.method? : Entry → Option MemberRef
  | methodRef m _ => some m
  | _ => none

/-- An entry only asks for the members that it mentions. -/
theorem Entry.rename_congr {r r' : Renaming} {e : Entry} (htype : r.type = r'.type)
    (hfield : ∀ m, e.field? = some m → r.field m = r'.field m)
    (hmethod : ∀ m, e.method? = some m → r.method m = r'.method m) : e.rename r = e.rename r' := by
  have hconstant : r.classConstant = r'.classConstant := by
    funext name
    rw [Renaming.classConstant, Renaming.classConstant, htype]
  have hdescriptor : r.descriptor = r'.descriptor := by
    funext d
    rw [Renaming.descriptor, Renaming.descriptor, htype]
  cases e with
  | fieldRef m => simp only [rename, Renaming.member, hconstant, hdescriptor, hfield m rfl]
  | methodRef m ofInterface =>
    simp only [rename, Renaming.member, hconstant, hdescriptor, hmethod m rfl]
  | _ => simp only [rename, hconstant, hdescriptor]

namespace ClassTree

/-- The fields whose new names a class asks for. -/
def fieldMentions (c : ClassTree) : List MemberRef :=
  c.constants.toList.filterMap (fun item => item.2.field?) ++
    c.fields.map fun f => ⟨c.name, f.name, f.descriptor⟩

/-- The methods whose new names a class asks for. -/
def methodMentions (c : ClassTree) : List MemberRef :=
  c.constants.toList.filterMap (fun item => item.2.method?) ++
    c.methods.map fun m => ⟨c.name, m.name, m.descriptor⟩

/-- A class has the same new names wherever the members it asks for have. -/
theorem rename_congr {r r' : Renaming} {c : ClassTree} (htype : r.type = r'.type)
    (hfields : ∀ m ∈ c.fieldMentions, r.field m = r'.field m)
    (hmethods : ∀ m ∈ c.methodMentions, r.method m = r'.method m) : c.rename r = c.rename r' := by
  have hdescriptor : r.descriptor = r'.descriptor := by
    funext d
    rw [Renaming.descriptor, Renaming.descriptor, htype]
  have hsignature : r.signature = r'.signature := by
    funext s
    rw [Renaming.signature, Renaming.signature, htype]
  have hconstant : r.classConstant = r'.classConstant := by
    funext name
    rw [Renaming.classConstant, Renaming.classConstant, htype]
  have hmetadata : ∀ m : Metadata, m.rename r = m.rename r' := by
    intro m
    rw [Metadata.rename, Metadata.rename, hdescriptor, hsignature]
  have hcode : ∀ code : Code, code.rename r = code.rename r' := by
    intro code
    rw [Code.rename, Code.rename, hdescriptor, hsignature, hconstant]
  have hentries : c.constants.map (·.rename r) (Entry.width_rename r) =
      c.constants.map (·.rename r') (Entry.width_rename r') := by
    refine EntryPool.ext_toList ?_
    rw [EntryPool.toList_map, EntryPool.toList_map]
    refine List.map_congr_left fun item hitem => ?_
    have hentry : item.2.rename r = item.2.rename r' := by
      refine Entry.rename_congr htype (fun m hm => hfields m ?_) (fun m hm => hmethods m ?_)
      · exact List.mem_append_left _ (List.mem_filterMap.2 ⟨item, hitem, hm⟩)
      · exact List.mem_append_left _ (List.mem_filterMap.2 ⟨item, hitem, hm⟩)
    rw [hentry]
  have hdeclared : (c.fields.map fun f => f.rename r c.name) =
      c.fields.map fun f => f.rename r' c.name := by
    refine List.map_congr_left fun f hf => ?_
    have hname : r.field ⟨c.name, f.name, f.descriptor⟩ = r'.field ⟨c.name, f.name, f.descriptor⟩ :=
      hfields _ (List.mem_append_right _ (List.mem_map.2 ⟨f, hf, rfl⟩))
    rw [FieldTree.rename, FieldTree.rename, hname, hdescriptor, hmetadata]
  have hdeclared' : (c.methods.map fun m => m.rename r c.name) =
      c.methods.map fun m => m.rename r' c.name := by
    refine List.map_congr_left fun m hm => ?_
    have hname : r.method ⟨c.name, m.name, m.descriptor⟩ =
        r'.method ⟨c.name, m.name, m.descriptor⟩ :=
      hmethods _ (List.mem_append_right _ (List.mem_map.2 ⟨m, hm, rfl⟩))
    rw [MethodTree.rename, MethodTree.rename, hname, hdescriptor, hmetadata, funext hcode]
  rw [rename, rename, htype, hentries, hdeclared, hdeclared', hmetadata]

/-- The same is known in both tables about the classes that the searches for new names of a class
pass. -/
structure SeenAlike (c : ClassTree) (t t' : NameTable) : Prop where
  fields : ∀ m ∈ c.fieldMentions, NameTable.Alike t.fields t.supertypes t'.supertypes m
  methods : ∀ m ∈ c.methodMentions, NameTable.Alike t.methods t.supertypes t'.supertypes m

theorem SeenAlike.refl (c : ClassTree) (t : NameTable) : c.SeenAlike t t where
  fields _ _ _ _ _ := rfl
  methods _ _ _ _ _ := rfl

/-- Two tables with the same names give a class the same new names if they know the same about the
classes that the searches for them pass. -/
theorem rename_eq_of_seenAlike {c : ClassTree} {t t' : NameTable} (hnames : t.SameNames t')
    (h : c.SeenAlike t t') : c.rename (Renamer.current t) = c.rename (Renamer.current t') := by
  refine rename_congr hnames.type (fun m hm => ?_) (fun m hm => ?_)
  · show t.field m = t'.field m
    rw [NameTable.field, NameTable.field, ← hnames.fields,
      NameTable.inherited?_congr (h.fields m hm)]
  · show t.method m = t'.method m
    rw [NameTable.method, NameTable.method, ← hnames.methods,
      NameTable.inherited?_congr (h.methods m hm)]

end ClassTree

end Crosswalk
