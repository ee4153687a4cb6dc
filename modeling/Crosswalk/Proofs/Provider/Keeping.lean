import Crosswalk.Proofs.Provider.Ready
import Crosswalk.Proofs.Provider.Shelves

/-!
# What a provider keeps

Over a run, whatever happens to the source and the files in between, a class is kept from the moment
its pipeline succeeds, and nothing else is (`Provider.Coherent`, `Event.coherent_afterAll`). So a
class that has been made is answered without a look at the mod, and any other is made again with
every request (`Provider.kept_over_runs`).
-/

namespace Crosswalk

namespace Provider

variable {σ ρ : Type} [ModSource σ] [Renamer ρ] {p : Provider σ ρ} {name : ClassName}

/-! ## What is made -/

/-- What is made for a class that is asked for. Its pipeline runs unless it is ready, and need not
succeed. -/
def makes (p : Provider σ ρ) (name : ClassName) : List (ClassName × Bytes) :=
  if name ∈ p.classes then
    []
  else
    match ((transform name).run p).1 with
    | .ok (some contents) => [(name, contents)]
    | _ => []

/-- The classes that are ready once others have been made. -/
def stocked (classes : Std.HashMap ClassName Bytes) (made : List (ClassName × Bytes)) :
    Std.HashMap ClassName Bytes :=
  made.foldl (fun classes item => classes.insert item.1 item.2) classes

/-- What is in stock stays. -/
theorem mem_stocked_of_mem {classes : Std.HashMap ClassName Bytes} (h : name ∈ classes)
    (made : List (ClassName × Bytes)) : name ∈ stocked classes made := by
  induction made generalizing classes with
  | nil => exact h
  | cons item rest ih => exact ih (Std.HashMap.mem_insert.2 (.inr h))

/-- One class that is not ready is made, or none. -/
theorem makes_cases (p : Provider σ ρ) (name : ClassName) : p.makes name = [] ∨
    ∃ contents, name ∉ p.classes ∧ p.makes name = [(name, contents)] := by
  rw [makes]
  by_cases hmem : name ∈ p.classes
  · exact .inl (if_pos hmem)
  · rw [if_neg hmem]
    split
    · exact .inr ⟨_, hmem, rfl⟩
    · exact .inl rfl

/-- A lookup of a class keeps what its pipeline makes. -/
theorem keeps_classBytes (name : ClassName) (p : Provider σ ρ) :
    ((classBytes name).run p).2.classes = stocked p.classes (p.makes name) ∧
      ((classBytes name).run p).2.materialized = p.materialized := by
  have hlooks := Shelf.looks_lookup Shelf.ready name (transform name) p
  obtain ⟨hclasses, hfiles⟩ := transform_keeps name p
  rw [← classBytes_eq] at hlooks
  generalize (classBytes name).run p = outcome at hlooks
  obtain ⟨r, q⟩ := outcome
  rw [makes]
  cases hlooks with
  | kept hitem =>
    have hmem : name ∈ q.classes := (Std.HashMap.getElem?_eq_some_iff.1 hitem).1
    rw [if_pos hmem]
    exact ⟨rfl, rfl⟩
  | made hitem hrun =>
    have hmem : name ∉ p.classes := (getElem?_eq_none_iff _ _).1 hitem
    rw [hrun] at hclasses hfiles
    rw [if_neg hmem, hrun, ← hclasses]
    exact ⟨rfl, hfiles⟩
  | missed hitem hrun hr =>
    have hmem : name ∉ p.classes := (getElem?_eq_none_iff _ _).1 hitem
    rw [hrun] at hclasses hfiles
    rw [if_neg hmem, hrun]
    refine ⟨hclasses.trans ?_, hfiles⟩
    split
    · rename_i contents heq
      exact absurd heq (hr contents)
    · rfl

/-- Putting a class into a file keeps what the lookup of the class does, and only a class that is
ready gets a file. -/
theorem keeps_place (name : ClassName) (p : Provider σ ρ) :
    ((classBytes name >>= place name).run p).2.classes = stocked p.classes (p.makes name) ∧
      ((classBytes name >>= place name).run p).2.materialized = p.materialized ∧
      ∀ location, ((classBytes name >>= place name).run p).1 = .ok (some location) →
        name ∈ ((classBytes name >>= place name).run p).2.classes := by
  obtain ⟨hclasses, hfiles⟩ := keeps_classBytes name p
  have hready : ∀ contents, ((classBytes name).run p).1 = .ok (some contents) →
      name ∈ ((classBytes name).run p).2.classes := by
    intro contents h
    rw [classBytes_eq] at h ⊢
    exact (Std.HashMap.getElem?_eq_some_iff.1 (Shelf.kept_of_lookup h)).1
  rcases hrun : (classBytes name).run p with ⟨e | contents, q⟩
  · rw [run_bind_error hrun]
    rw [hrun] at hclasses hfiles
    exact ⟨hclasses, hfiles, fun _ h => by cases h⟩
  · obtain ⟨r, files, log, hplace, hnone⟩ := run_place name contents q
    rw [run_bind_ok hrun, hplace]
    rw [hrun] at hclasses hfiles hready
    refine ⟨hclasses, hfiles, fun location h => ?_⟩
    cases contents with
    | none => cases (hnone rfl).symm.trans h
    | some contents => exact hready contents rfl

/-- Only classes that are ready have files. -/
theorem keeps_classResource (name : ClassName)
    (hplaced : ∀ name ∈ p.materialized, name ∈ p.classes) :
    ((classResource name).run p).2.classes = stocked p.classes (p.makes name) ∧
      ∀ name' ∈ ((classResource name).run p).2.materialized,
        name' ∈ ((classResource name).run p).2.classes := by
  have hlooks := Shelf.looks_lookup Shelf.placed name (classBytes name >>= place name) p
  obtain ⟨hclasses, hfiles, hready⟩ := keeps_place name p
  rw [← classResource_eq_lookup] at hlooks
  generalize (classResource name).run p = outcome at hlooks
  obtain ⟨r, q⟩ := outcome
  cases hlooks with
  | kept hitem =>
    -- A class that has a file is ready, so nothing is made for it.
    have hmem : name ∈ q.materialized := (Std.HashMap.getElem?_eq_some_iff.1 hitem).1
    rw [makes, if_pos (hplaced name hmem)]
    exact ⟨rfl, hplaced⟩
  | @made location q hitem hrun =>
    rw [hrun] at hclasses hfiles hready
    refine ⟨hclasses, fun name' h => ?_⟩
    rcases Std.HashMap.mem_insert.1 h with h | h
    · obtain rfl : name = name' := by simpa using h
      exact hready location rfl
    · show name' ∈ q.classes
      rw [hclasses]
      exact mem_stocked_of_mem (hplaced name' (hfiles ▸ h)) _
  | missed hitem hrun hr =>
    rw [hrun] at hclasses hfiles
    refine ⟨hclasses, fun name' h => ?_⟩
    rw [hclasses]
    exact mem_stocked_of_mem (hplaced name' (hfiles ▸ h)) _

end Provider

/-! ## Requests -/

namespace Request

open Provider

variable {σ ρ : Type} [ModSource σ] [Renamer ρ]

/-- The class that a request is about. -/
def target? : Request → Option ClassName
  | classBytes name | classTree name => some name
  | resource path => ClassName.ofFilePath? path

/-- What a request makes. -/
def makes (request : Request) (p : Provider σ ρ) : List (ClassName × Bytes) :=
  request.target?.elim [] p.makes

/-- A request for bytes ends as the lookup does. -/
theorem after_classBytes (name : ClassName) (p : Provider σ ρ) :
    (classBytes name).after p = ((Provider.classBytes name).run p).2 :=
  view_run_bind id _ (fun _ _ => rfl) p

/-- A class is looked up like its bytes. -/
theorem after_classTree (name : ClassName) (p : Provider σ ρ) :
    (classTree name).after p = ((Provider.classBytes name).run p).2 := by
  refine (view_run_bind id _ (fun _ _ => rfl) p).trans ?_
  show ((Provider.classTree name).run p).2 = _
  rcases hrun : (Provider.classBytes name).run p with ⟨e | contents, q⟩
  · rw [run_classTree_of_error hrun]
  · rw [run_classTree_of_ok hrun]

/-- A request for a resource ends as its search does. -/
theorem after_resource (path : String) (p : Provider σ ρ) :
    (resource path).after p = ((Provider.resource path).run p).2 :=
  view_run_bind id _ (fun _ _ => rfl) p

/-- A request keeps the class that it makes ready and nothing else, and only classes that are ready
get a file. -/
theorem keeps_after (request : Request) {p : Provider σ ρ}
    (hplaced : ∀ name ∈ p.materialized, name ∈ p.classes) :
    (request.after p).classes = stocked p.classes (request.makes p) ∧
      ∀ name ∈ (request.after p).materialized, name ∈ (request.after p).classes := by
  have hlookup : ∀ name, ((Provider.classBytes name).run p).2.classes =
      stocked p.classes (p.makes name) ∧
      ∀ name' ∈ ((Provider.classBytes name).run p).2.materialized,
        name' ∈ ((Provider.classBytes name).run p).2.classes := by
    intro name
    obtain ⟨hclasses, hfiles⟩ := keeps_classBytes name p
    rw [hclasses, hfiles]
    exact ⟨rfl, fun name' h => mem_stocked_of_mem (hplaced name' h) _⟩
  cases request with
  | classBytes name =>
    rw [after_classBytes]
    exact hlookup name
  | classTree name =>
    rw [after_classTree]
    exact hlookup name
  | resource path =>
    rw [after_resource, Provider.resource, makes, target?]
    cases ClassName.ofFilePath? path with
    | none =>
      obtain ⟨r, source, files, log, hrun⟩ := run_plainResource path p
      simp only [hrun]
      exact ⟨rfl, hplaced⟩
    | some name => exact keeps_classResource name hplaced

end Request

/-! ## Runs -/

namespace Provider

variable {σ ρ : Type} {p q : Provider σ ρ} {made : List (ClassName × Bytes)}

/-- The classes that are ready are those that have been made, each once, and only these have files.
-/
structure Coherent (p : Provider σ ρ) (made : List (ClassName × Bytes)) : Prop where
  once : (made.map Prod.fst).Nodup
  ready : ∀ name contents, p.classes[name]? = some contents ↔ (name, contents) ∈ made
  count : p.classCount = made.length
  placed : ∀ name ∈ p.materialized, name ∈ p.classes

/-- In the beginning nothing has been made. -/
theorem coherent_start (settings : Settings) (source : σ) (r : ρ) (files : FileSystem)
    (log : Array Record) : Coherent (start settings source r files log) [] where
  once := List.nodup_nil
  ready := by simp [start]
  count := rfl
  placed := by simp [start]

namespace Coherent

/-- The classes that are ready are those that have been made. -/
theorem mem_iff (h : Coherent p made) (name : ClassName) :
    name ∈ p.classes ↔ name ∈ made.map Prod.fst := by
  constructor
  · intro hmem
    have hitem := (h.ready name _).1 (Std.HashMap.getElem?_eq_some_getElem hmem)
    exact List.mem_map_of_mem hitem
  · intro hmem
    obtain ⟨⟨name, contents⟩, hitem, rfl⟩ := List.mem_map.1 hmem
    exact (Std.HashMap.getElem?_eq_some_iff.1 ((h.ready name contents).2 hitem)).1

/-- Nothing but what is kept matters. -/
theorem of_same (h : Coherent p made) (hclasses : q.classes = p.classes)
    (hplaced : ∀ name ∈ q.materialized, name ∈ q.classes) : Coherent q made where
  once := h.once
  ready name contents := by rw [hclasses, h.ready]
  count := by rw [← h.count, classCount, classCount, hclasses]
  placed := hplaced

/-- A class that is not ready may be made. -/
theorem insert (h : Coherent p made) {name : ClassName} (hfresh : name ∉ p.classes)
    (contents : Bytes) (hclasses : q.classes = p.classes.insert name contents)
    (hplaced : ∀ name ∈ q.materialized, name ∈ q.classes) :
    Coherent q (made ++ [(name, contents)]) where
  once := by
    have hnew : name ∉ made.map Prod.fst := mt (h.mem_iff name).2 hfresh
    rw [List.map_append, List.map_singleton, List.nodup_append]
    refine ⟨h.once, List.nodup_cons.2 ⟨List.not_mem_nil, List.nodup_nil⟩, ?_⟩
    rintro other hother name' hname' rfl
    rw [List.mem_singleton.1 hname'] at hother
    exact hnew hother
  ready name' contents' := by
    rw [hclasses, Std.HashMap.getElem?_insert, List.mem_append, List.mem_singleton, ← h.ready]
    by_cases hname : name = name'
    · subst hname
      have hnone : p.classes[name]? = none := (getElem?_eq_none_iff _ _).2 hfresh
      simp [hnone, eq_comm]
    · have hother : name' ≠ name := Ne.symm hname
      simp [hname, hother]
  count := by
    have hcount := h.count
    rw [classCount] at hcount ⊢
    rw [hclasses, Std.HashMap.size_insert, if_neg hfresh, hcount, List.length_append]
    rfl
  placed := hplaced

end Coherent

end Provider

open Provider

variable {σ ρ : Type} [ModSource σ] [Renamer ρ]

/-- A request makes one class that is not ready, or none. -/
theorem Request.makes_cases (request : Request) (p : Provider σ ρ) : request.makes p = [] ∨
    ∃ name contents, name ∉ p.classes ∧ request.makes p = [(name, contents)] := by
  rw [makes]
  cases request.target? with
  | none => exact .inl rfl
  | some name =>
    rcases p.makes_cases name with h | ⟨contents, hfresh, h⟩
    · exact .inl h
    · exact .inr ⟨name, contents, hfresh, h⟩

/-- A request keeps this, with what it makes. -/
theorem Request.coherent_after (request : Request) {p : Provider σ ρ}
    {made : List (ClassName × Bytes)} (h : Coherent p made) :
    Coherent (request.after p) (made ++ request.makes p) := by
  obtain ⟨hclasses, hplaced⟩ := request.keeps_after h.placed
  rcases request.makes_cases p with hmakes | ⟨name, contents, hfresh, hmakes⟩
  · rw [hmakes] at hclasses ⊢
    rw [List.append_nil]
    exact h.of_same hclasses hplaced
  · rw [hmakes] at hclasses ⊢
    exact h.insert hfresh contents hclasses hplaced

namespace Event

/-- The class that an event makes ready. -/
def makes : Event σ → Provider σ ρ → List (ClassName × Bytes)
  | asked request, p => request.makes p
  | changed _ _, _ => []

/-- The classes that events make ready, in order. -/
def makings : List (Event σ) → Provider σ ρ → List (ClassName × Bytes)
  | [], _ => []
  | event :: rest, p => event.makes p ++ makings rest (event.after p)

theorem coherent_after (event : Event σ) {p : Provider σ ρ} {made : List (ClassName × Bytes)}
    (h : Coherent p made) : Coherent (event.after p) (made ++ event.makes p) := by
  cases event with
  | asked request => exact request.coherent_after h
  | changed source files =>
    rw [makes, List.append_nil]
    exact h.of_same rfl h.placed

/-- What is kept is coherent with all that has been made. -/
theorem coherent_afterAll (events : List (Event σ)) {p : Provider σ ρ}
    {made : List (ClassName × Bytes)} (h : Coherent p made) :
    Coherent (afterAll events p) (made ++ makings events p) := by
  -- The events pass on what has been made so far, and each adds what it makes.
  induction events generalizing p made with
  | nil => rwa [makings, List.append_nil]
  | cons event rest ih =>
    rw [makings, ← List.append_assoc]
    exact ih (event.coherent_after h)

end Event

namespace Provider

variable {p : Provider σ ρ} {made : List (ClassName × Bytes)} {name : ClassName} {contents : Bytes}

/-! ## Answers -/

/-- The provider has the class: its bytes and what is read from them are answered with nothing done
for it, and only files, reports and what is known about files change if it is served as a resource.
-/
structure Serves (p : Provider σ ρ) (name : ClassName) (contents : Bytes) : Prop where
  bytes : (classBytes name).run p = (.ok (some contents), p)
  tree : (classTree name).run p = (reading name (some contents), p)
  resource : ∀ path, ClassName.ofFilePath? path = some name → ∃ files log materialized,
    ((resource path).run p).2 = { p with files, log, materialized }

/-- The provider does not have the class: the pipeline runs, whichever way the class is asked for.
-/
structure Remakes (p : Provider σ ρ) (name : ClassName) : Prop where
  bytes : (classBytes name).run p = (transform name >>= Shelf.ready.keep name).run p
  tree : (classTree name).run p = (do
    let contents ← transform name >>= Shelf.ready.keep name
    (reading name contents : Serving σ ρ (Option ClassTree))).run p
  resource : ∀ path, ClassName.ofFilePath? path = some name →
    (resource path).run p =
      (transform name >>= Shelf.ready.keep name >>= place name >>= Shelf.placed.keep name).run p

/-- What has been made is served as it is. -/
theorem Coherent.serves (h : Coherent p made) (hmade : (name, contents) ∈ made) :
    Serves p name contents := by
  have hitem : p.classes[name]? = some contents := (h.ready name contents).2 hmade
  have hbytes := run_classBytes_of_ready hitem
  refine ⟨hbytes, run_classTree_of_ok hbytes, fun path hpath => ?_⟩
  rw [Provider.resource, hpath]
  show ∃ files log materialized, ((classResource name).run p).2 = _
  rw [classResource_eq_lookup]
  cases hfile : p.materialized[name]? with
  | some location =>
    rw [Shelf.run_lookup_of_kept hfile]
    exact ⟨p.files, p.log, p.materialized, rfl⟩
  | none =>
    obtain ⟨r, files, log, hplace, -⟩ := run_place name (some contents) p
    rw [Shelf.run_lookup_of_missing hfile, bind_assoc, run_bind_ok hbytes]
    rcases r with e | _ | location
    · rw [run_bind_error hplace]
      exact ⟨files, log, p.materialized, rfl⟩
    · rw [run_bind_ok hplace]
      exact ⟨files, log, p.materialized, rfl⟩
    · rw [run_bind_ok hplace]
      exact ⟨files, log, _, rfl⟩

/-- What has not been made is made anew. -/
theorem Coherent.remakes (h : Coherent p made) (hmissing : name ∉ made.map Prod.fst) :
    Remakes p name := by
  have hmem : name ∉ p.classes := mt (h.mem_iff name).1 hmissing
  have hitem : p.classes[name]? = none := (getElem?_eq_none_iff _ _).2 hmem
  have hbytes : (classBytes name).run p = (transform name >>= Shelf.ready.keep name).run p := by
    rw [classBytes_eq]
    exact Shelf.run_lookup_of_missing hitem
  refine ⟨hbytes, ?_, fun path hpath => ?_⟩
  · rcases hrun : (transform name >>= Shelf.ready.keep name).run p with ⟨e | contents, q⟩
    · rw [run_bind_error hrun]
      exact run_classTree_of_error (hbytes.trans hrun)
    · rw [run_bind_ok hrun]
      exact run_classTree_of_ok (hbytes.trans hrun)
  · -- Without the class there is no file of it either.
    have hfile : p.materialized[name]? = none :=
      (getElem?_eq_none_iff _ _).2 fun hplaced => hmem (h.placed name hplaced)
    rw [Provider.resource, hpath]
    show (classResource name).run p = _
    rw [classResource_eq_lookup, Shelf.run_lookup_of_missing hfile, bind_assoc,
      bind_assoc (transform name >>= Shelf.ready.keep name)]
    rcases hrun : (transform name >>= Shelf.ready.keep name).run p with ⟨e | contents, q⟩
    · rw [run_bind_error hrun, run_bind_error (hbytes.trans hrun)]
    · rw [run_bind_ok hrun, run_bind_ok (hbytes.trans hrun)]

/-- A lookup that makes nothing leaves everything to be made again. -/
theorem Coherent.lookup_again (h : Coherent p made) (hmisses : Shelf.Misses (classBytes name) p) :
    ((classBytes name).run p).2.classes = p.classes ∧
      ((classBytes name).run p).2.materialized = p.materialized ∧
      Remakes ((classBytes name).run p).2 name := by
  obtain ⟨-, hfiles⟩ := keeps_classBytes name p
  have hmissing : name ∉ made.map Prod.fst := by
    intro hmem
    obtain ⟨⟨name, contents⟩, hmade, rfl⟩ := List.mem_map.1 hmem
    exact hmisses contents (congrArg Prod.fst (h.serves hmade).bytes)
  have hsame : ((classBytes name).run p).2.classes = p.classes := by
    rw [classBytes_eq] at hmisses ⊢
    exact (Shelf.lookup_again (transform_keeps name p).1 hmisses).1
  refine ⟨hsame, hfiles, (h.of_same hsame ?_).remakes hmissing⟩
  rw [hsame, hfiles]
  exact h.placed

/-- A resource without a file keeps none, and no class but what the lookup of the class keeps. -/
theorem Coherent.place_again (h : Coherent p made) (hmisses : Shelf.Misses (classResource name) p) :
    ((classResource name).run p).2.classes = ((classBytes name).run p).2.classes ∧
      ((classResource name).run p).2.materialized = p.materialized ∧
      (classResource name).run ((classResource name).run p).2 =
        (classBytes name >>= place name >>= Shelf.placed.keep name).run
          ((classResource name).run p).2 := by
  obtain ⟨hclasses, -⟩ := keeps_classResource name h.placed
  obtain ⟨hclasses', -⟩ := keeps_classBytes name p
  obtain ⟨-, hfiles, -⟩ := keeps_place name p
  refine ⟨hclasses.trans hclasses'.symm, ?_⟩
  rw [classResource_eq_lookup] at hmisses ⊢
  exact Shelf.lookup_again hfiles hmisses

/-- Whatever has been asked for, and whatever has become of the source and the files in between, a
class is answered as it was made by its pipeline, without a look at the mod, another registration or
another candidate. A lookup without an answer keeps nothing, and the next one runs the pipeline
again. The classes that are counted are those whose pipeline has succeeded, which happens once for
each. -/
theorem kept_over_runs (settings : Settings) (source : σ) (r : ρ) (files : FileSystem)
    (log : Array Record) (events : List (Event σ)) :
    let p := Event.afterAll events (start settings source r files log)
    let made := Event.makings events (start settings source r files log)
    (∀ spelling, let name := ClassName.normalize spelling
      (∀ contents, (name, contents) ∈ made → Serves p name contents) ∧
      (name ∉ made.map Prod.fst → Remakes p name) ∧
      (Shelf.Misses (classBytes name) p →
        ((classBytes name).run p).2.classes = p.classes ∧
          ((classBytes name).run p).2.materialized = p.materialized ∧
          Remakes ((classBytes name).run p).2 name) ∧
      (Shelf.Misses (classResource name) p →
        ((classResource name).run p).2.classes = ((classBytes name).run p).2.classes ∧
          ((classResource name).run p).2.materialized = p.materialized ∧
          (classResource name).run ((classResource name).run p).2 =
            (classBytes name >>= place name >>= Shelf.placed.keep name).run
              ((classResource name).run p).2)) ∧
      (made.map Prod.fst).Nodup ∧ p.classCount = made.length := by
  intro p made
  have hcoherent : Coherent p made := Event.coherent_afterAll events (coherent_start ..)
  refine ⟨fun spelling => ?_, hcoherent.once, hcoherent.count⟩
  exact ⟨fun contents => hcoherent.serves, hcoherent.remakes, hcoherent.lookup_again,
    hcoherent.place_again⟩

/-- The class `A` is answered, and counted, once its mod has lost its files. -/
theorem kept_over_runs_family :
    let p := Event.afterAll [.asked (.classBytes (.normalize "A")), .changed ⟨[]⟩ .empty] family
    (classBytes (.normalize "A")).run p = (.ok (some ClassTree.callingBytes), p) ∧
      p.classCount = 1 := by
  intro p
  obtain ⟨hanswers, -, hcount⟩ := kept_over_runs (.standard "tmp") familyMod familyNames .empty #[]
    [.asked (.classBytes (.normalize "A")), .changed ⟨[]⟩ .empty]
  have hready : p.classes[ClassName.normalize "A"]? = some ClassTree.callingBytes :=
    classes_after_family
  have hcoherent : Coherent p _ := Event.coherent_afterAll _ (coherent_start ..)
  have hmade := (hcoherent.ready _ _).1 hready
  refine ⟨((hanswers "A").1 _ hmade).bytes, hcount.trans ?_⟩
  -- The change of the files makes nothing, and the request makes one class at most.
  have hmakings : Event.makings (ρ := NameTable)
      [.asked (.classBytes (.normalize "A")), .changed ⟨[]⟩ .empty] family =
      (Request.classBytes (.normalize "A")).makes family := List.append_nil _
  rcases (Request.classBytes (.normalize "A")).makes_cases family with h | ⟨name, contents, -, h⟩
  · rw [List.nil_append] at hmade
    have hnone := hmakings.trans h
    exact absurd (hnone ▸ hmade) List.not_mem_nil
  · exact congrArg List.length (hmakings.trans h)

/-- The names of a class with dots and with slashes are spellings of the same. -/
example : ClassName.normalize "a.b.C" = .normalize "a/b/C" := by decide

end Provider

end Crosswalk
