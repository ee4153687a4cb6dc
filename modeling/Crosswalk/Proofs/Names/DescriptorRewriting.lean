import Crosswalk.Proofs.Names.DescriptorGrammar
import Crosswalk.Proofs.Names.Descriptors

/-!
# Descriptors with other names, as trees

A descriptor is taken apart into its letters and the names of its classes (`pieces_spell`), since
the name of a class is all that is read between an `L` and the next semicolon, whatever letters it
holds. So a descriptor with other names for its classes is read as the same tree with the other
names in it (`parse?_map`), provided that no new name holds the semicolon that ends names.
-/

namespace Crosswalk.Descriptor

variable {f g : String → String} {descriptor : String}

/-! ## Taking a descriptor apart -/

/-- The pieces that a type is read as. -/
def FieldType.pieces : FieldType → List Piece
  | primitive p => [.verbatim p.letter]
  | object name => [.verbatim 'L', .name name]
  | array component => .verbatim '[' :: component.pieces

/-- The pieces that a descriptor is read as. -/
def Tree.pieces : Tree → List Piece
  | ofField type => type.pieces
  | ofMethod parameters result =>
    .verbatim '(' :: (parameters.flatMap FieldType.pieces ++
      .verbatim ')' :: result.elim [.verbatim 'V'] FieldType.pieces)

/-- Outside of names, any other character than an `L` is copied. -/
theorem emitted_verbatim {c : Char} (hc : c ≠ 'L') (rest : List Char) :
    scanner.emitted .outside (c :: rest) = .verbatim c :: scanner.emitted .outside rest := by
  have hstep : scanner.step .outside c = (.outside, [.verbatim c]) := by
    simp [scanner, step, hc]
  rw [Transducer.emitted_cons, hstep]
  rfl

/-- A type is read as its pieces, and leaves the reader outside of names again. -/
theorem emitted_letters {t : FieldType} (h : t.Fits) (rest : List Char) :
    scanner.emitted .outside (t.letters ++ rest) = t.pieces ++ scanner.emitted .outside rest := by
  induction t with
  | primitive p =>
    have hne : p.letter ≠ 'L' := by cases p <;> decide
    exact emitted_verbatim hne rest
  | object name =>
    have hopen : scanner.step .outside 'L' = (.inName "", [.verbatim 'L']) := rfl
    have hname := emitted_inName "" (h name rfl) rest
    rw [FieldType.letters, List.cons_append, List.append_assoc, Transducer.emitted_cons, hopen]
    simpa [FieldType.pieces] using hname
  | array component ih =>
    rw [FieldType.letters, List.cons_append, emitted_verbatim (by decide), ih h]
    rfl

/-- The scanner takes types one after the other. -/
theorem emitted_flatMap_letters {types : List FieldType} (h : ∀ t ∈ types, t.Fits)
    (rest : List Char) :
    scanner.emitted .outside (types.flatMap FieldType.letters ++ rest) =
      types.flatMap FieldType.pieces ++ scanner.emitted .outside rest := by
  induction types with
  | nil => rfl
  | cons t types ih =>
    rw [List.forall_mem_cons] at h
    rw [List.flatMap_cons, List.append_assoc, emitted_letters h.1, ih h.2, List.flatMap_cons,
      List.append_assoc]

/-- The pieces of a descriptor are those of its types. -/
theorem pieces_spell {t : Tree} (h : t.Fits) : pieces t.spell = t.pieces := by
  have hend : scanner.emitted .outside [] = [] := rfl
  cases t with
  | ofField type =>
    have hread := emitted_letters (h type List.mem_cons_self) []
    rw [hend, List.append_nil, List.append_nil] at hread
    rw [pieces, Tree.spell, String.toList_ofList, hread]
    rfl
  | ofMethod parameters result =>
    have hresult : scanner.emitted .outside (result.elim ['V'] FieldType.letters) =
        result.elim [.verbatim 'V'] FieldType.pieces := by
      cases result with
      | none => rfl
      | some type =>
        have hread := emitted_letters (h type (by simp [Tree.types])) []
        simpa [hend] using hread
    have hfits : ∀ type ∈ parameters, type.Fits := fun type htype =>
      h type (List.mem_append_left _ htype)
    -- Each type leaves the reader outside of names, so the brackets are copied.
    have hparameters := emitted_flatMap_letters hfits
    rw [pieces, Tree.spell, String.toList_ofList, emitted_verbatim (by decide), hparameters,
      emitted_verbatim (by decide), hresult]
    rfl

/-! ## Other names -/

@[simp] theorem Piece.toList_render_verbatim (c : Char) :
    ((Piece.verbatim c).render f).toList = [c] := by
  simp [render]

/-- The name in a piece. -/
def Piece.name? : Piece → Option String
  | verbatim _ => none
  | name s => some s

/-- The names are those of the pieces. -/
theorem names_eq_filterMap : names descriptor = (pieces descriptor).filterMap Piece.name? :=
  List.filterMap_congr fun piece _ => by cases piece <;> rfl

namespace FieldType

/-- The pieces of a type are put together to the type with the other name. -/
theorem flatMap_render (t : FieldType) :
    t.pieces.flatMap (fun piece => (piece.render f).toList) = (t.rename f).letters := by
  induction t with
  | primitive p => simp [pieces, rename, letters]
  | object name => simp [pieces, rename, letters, Piece.render]
  | array component ih =>
    rw [pieces, List.flatMap_cons, ih, Piece.toList_render_verbatim]
    rfl

/-- The pieces of a type ask for its class. -/
theorem filterMap_pieces (t : FieldType) : t.pieces.filterMap Piece.name? = t.name?.toList := by
  induction t with
  | primitive p => rfl
  | object name => rfl
  | array component ih => exact ih

/-- The name of a type is the one that changes. -/
theorem name?_rename (t : FieldType) : (t.rename f).name? = t.name?.map f := by
  induction t with
  | primitive p => rfl
  | object name => rfl
  | array component ih => exact ih

end FieldType

/-- A descriptor gets its other names one by one. -/
theorem map_text {t : Tree} (h : t.Fits) : map f t.spell = (t.rename f).spell := by
  rw [map, pieces_spell h, ← String.toList_inj, String.toList_join, List.flatMap_map]
  cases t with
  | ofField type =>
    rw [Tree.rename, Tree.spell, String.toList_ofList]
    exact type.flatMap_render
  | ofMethod parameters result =>
    have hparameters : (parameters.map (FieldType.rename f)).flatMap FieldType.letters =
        (parameters.flatMap FieldType.pieces).flatMap fun piece => (piece.render f).toList := by
      rw [List.flatMap_map, List.flatMap_assoc]
      exact List.flatMap_congr fun t _ => t.flatMap_render.symm
    have hresult : (result.map (FieldType.rename f)).elim ['V'] FieldType.letters =
        (result.elim [.verbatim 'V'] FieldType.pieces).flatMap
          fun piece => (piece.render f).toList := by
      cases result with
      | none => simp
      | some type => exact type.flatMap_render.symm
    rw [Tree.rename, Tree.spell, String.toList_ofList, hparameters, hresult, Tree.pieces]
    simp

/-- A descriptor asks for its classes. -/
theorem names_spell {t : Tree} (h : t.Fits) : names t.spell = t.names := by
  have hnames : ∀ types : List FieldType,
      (types.flatMap FieldType.pieces).filterMap Piece.name? = types.filterMap FieldType.name? := by
    intro types
    rw [List.filterMap_flatMap, List.filterMap_eq_flatMap_toList]
    exact List.flatMap_congr fun t _ => t.filterMap_pieces
  have hname : ∀ type : FieldType,
      type.pieces.filterMap Piece.name? = [type].filterMap FieldType.name? := by
    intro type
    have htype := hnames [type]
    rwa [List.flatMap_singleton] at htype
  rw [names_eq_filterMap, pieces_spell h, Tree.names]
  cases t with
  | ofField type => exact hname type
  | ofMethod parameters result =>
    have hresult : (result.elim [.verbatim 'V'] FieldType.pieces).filterMap Piece.name? =
        result.toList.filterMap FieldType.name? := by
      cases result with
      | none => rfl
      | some type => exact hname type
    rw [Tree.types, List.filterMap_append, ← hnames parameters, ← hresult, Tree.pieces,
      List.filterMap_cons_none rfl, List.filterMap_append, List.filterMap_cons_none rfl]

namespace Tree

/-- The types of a descriptor change one by one. -/
theorem types_rename (t : Tree) : (t.rename f).types = t.types.map (FieldType.rename f) := by
  cases t with
  | ofField type => rfl
  | ofMethod parameters result => cases result <;> simp [rename, types]

/-- The names of a renamed descriptor are the new names. -/
theorem names_rename (t : Tree) : (t.rename f).names = t.names.map f := by
  rw [names, types_rename, List.filterMap_map, names, List.map_filterMap]
  exact List.filterMap_congr fun type _ => type.name?_rename

/-- A descriptor can be spelled if no name has a semicolon. -/
theorem fits_iff {t : Tree} : t.Fits ↔ ∀ name ∈ t.names, ';' ∉ name.toList := by
  simp only [Fits, FieldType.Fits, names, List.mem_filterMap, forall_exists_index, and_imp]
  exact ⟨fun h name type htype hname => h type htype name hname,
    fun h type htype name hname => h name type htype hname⟩

end Tree

/-- An array stays one. -/
theorem isArray_map (h : isArray descriptor = true) : isArray (map f descriptor) = true := by
  obtain ⟨text, htext⟩ := List.head?_eq_some_iff.1 (by simpa [isArray] using h)
  rw [map, pieces, htext, emitted_verbatim (by decide)]
  simp [isArray, String.toList_join]

/-- What a descriptor spells stays as it is, except that each class has got its other name: it is
read as the same tree, with the other names in their places. Just the classes of the tree are asked
for, in order, and two changes of names compose. All of this holds of the name of an array in a
class constant, too. -/
theorem parse?_map {t : Tree} (h : parse? descriptor = some t)
    (hnew : ∀ name ∈ t.names, ';' ∉ (f name).toList) :
    parse? (map f descriptor) = some (t.rename f) ∧ names descriptor = t.names ∧
      map g (map f descriptor) = map (fun name => g (f name)) descriptor ∧
      (isArray descriptor = true → parse? (mapConstant f descriptor) = some (t.rename f) ∧
        constantNames descriptor = t.names ∧
        mapConstant g (mapConstant f descriptor) =
          mapConstant (fun name => g (f name)) descriptor) := by
  obtain ⟨hfits, rfl⟩ := parse?_eq_some_iff.1 h
  have hnames := names_spell hfits
  have hparse : parse? (map f t.spell) = some (t.rename f) := by
    refine parse?_eq_some_iff.2 ⟨?_, (map_text hfits).symm⟩
    rw [Tree.fits_iff, Tree.names_rename, List.forall_mem_map]
    exact hnew
  have hmap : map g (map f t.spell) = map (fun name => g (f name)) t.spell :=
    map_map (hnames ▸ hnew)
  refine ⟨hparse, hnames, hmap, fun harray => ?_⟩
  have hconstant : mapConstant f t.spell = map f t.spell := if_pos harray
  rw [hconstant]
  refine ⟨hparse, ?_, ?_⟩
  · rw [constantNames, if_pos harray, hnames]
  · rw [mapConstant, if_pos (isArray_map harray), hmap, mapConstant, if_pos harray]

/-- Other names for a class whose name begins like a descriptor, and for one without a package. -/
def lengthened (name : String) : String :=
  if name = "L/LL" then "[a/(B" else if name = "I" then "" else name

/-- The classes are called like letters that stand for something else in front of a name. -/
theorem parse?_map_letters :
    parse? "([[LL/LL;IJLI;)[LI;" = some (.ofMethod
        [.array (.array (.object "L/LL")), .primitive .int, .primitive .long, .object "I"]
        (some (.array (.object "I")))) ∧
      (∀ name ∈ ["L/LL", "I", "I"], ';' ∉ (lengthened name).toList) ∧
      parse? "([[L[a/(B;IJL;)[L;" = some (.ofMethod
        [.array (.array (.object "[a/(B")), .primitive .int, .primitive .long, .object ""]
        (some (.array (.object "")))) ∧
      parse? "[LI;" = some (.ofField (.array (.object "I"))) ∧
      parse? (mapConstant lengthened "[LI;") = some (.ofField (.array (.object ""))) := by
  have hmethod : parse? "([[LL/LL;IJLI;)[LI;" = some (.ofMethod
      [.array (.array (.object "L/LL")), .primitive .int, .primitive .long, .object "I"]
      (some (.array (.object "I")))) := by
    refine parse?_eq_some_iff.2 ⟨?_, by decide +kernel⟩
    rw [Tree.fits_iff]
    decide +kernel
  have harray : parse? "[LI;" = some (.ofField (.array (.object "I"))) := by decide +kernel
  have hnew : ∀ name ∈ ["L/LL", "I", "I"], ';' ∉ (lengthened name).toList := by decide +kernel
  have hnew' : ∀ name ∈ ["I"], ';' ∉ (lengthened name).toList := by decide +kernel
  have hmap : map lengthened "([[LL/LL;IJLI;)[LI;" = "([[L[a/(B;IJL;)[L;" := by decide +kernel
  have hread := (parse?_map (g := id) hmethod hnew).1
  rw [hmap] at hread
  exact ⟨hmethod, hnew, hread, harray, ((parse?_map (g := id) harray hnew').2.2.2 rfl).1⟩

end Crosswalk.Descriptor
