import Crosswalk.Proofs.ClassTree.Members
import Crosswalk.Proofs.Pool.Entries

/-!
# Class trees read back

A class tree that has been read is given back by its bytes exactly if every text, every list and
every annotation in it has room in the field that announces its length; all that may have changed
then is that there are more constants behind the old ones (`ClassTree.reads_back_iff`).
-/

namespace Crosswalk

open PoolBuilder (text className Writes Grows)

namespace ClassTree

/-! ## What every class tree that is read has in common -/

/-- The name of the super class in a slot, where 0 stands for none. -/
def readSuper (pool : ConstantPool) (slot : Index) : Except Malformed (Option String) :=
  if slot = 0 then pure none else some <$> pool.className slot

/-- A class is read part by part. -/
theorem ofFile_eq (file : ClassFile) : ofFile file = (do
    let pool := file.constants
    let constants ← EntryPool.ofPool pool
    let superName ← readSuper pool file.superClass
    let interfaces ← file.interfaces.mapM pool.className
    let fields ← file.fields.mapM (FieldTree.ofMember pool)
    let methods ← file.methods.mapM (MethodTree.ofMember pool)
    let metadata ← Metadata.ofAttributes pool file.attributes
    let name ← pool.className file.thisClass
    pure { version := file.version, access := file.access, name, superName, interfaces, fields,
           methods, metadata, constants }) := by
  unfold ofFile readSuper
  by_cases h : file.superClass = 0
  · simp only [h, if_true, pure_bind]
  · simp only [h, if_false]

/-- Everything in the class tree is what the file leads to. -/
structure ReadFrom (f : ClassFile) (c : ClassTree) : Prop where
  version : c.version = f.version
  constants : EntryPool.ofPool f.constants = .ok c.constants
  superName : readSuper f.constants f.superClass = .ok c.superName
  interfaces : f.interfaces.mapM f.constants.className = .ok c.interfaces
  fields : f.fields.mapM (FieldTree.ofMember f.constants) = .ok c.fields
  methods : f.methods.mapM (MethodTree.ofMember f.constants) = .ok c.methods
  metadata : Metadata.ofAttributes f.constants f.attributes = .ok c.metadata
  name : f.constants.className f.thisClass = .ok c.name

/-- A class that is read comes from the file as described. -/
theorem readFrom_of_ofFile {f : ClassFile} {c : ClassTree} (h : ofFile f = .ok c) :
    ReadFrom f c := by
  rw [ofFile_eq] at h
  obtain ⟨constants, hconstants, h⟩ := bind_eq_ok_iff.1 h
  obtain ⟨superName, hsuper, h⟩ := bind_eq_ok_iff.1 h
  obtain ⟨interfaces, hinterfaces, h⟩ := bind_eq_ok_iff.1 h
  obtain ⟨fields, hfields, h⟩ := bind_eq_ok_iff.1 h
  obtain ⟨methods, hmethods, h⟩ := bind_eq_ok_iff.1 h
  obtain ⟨metadata, hmetadata, h⟩ := bind_eq_ok_iff.1 h
  obtain ⟨name, hname, rfl⟩ := map_eq_ok_iff.1 h
  exact ⟨rfl, hconstants, hsuper, hinterfaces, hfields, hmethods, hmetadata, hname⟩

/-- The class tree may have been read. -/
structure Regular (c : ClassTree) : Prop where
  version : c.version.isSupported = true
  constants : c.constants.Regular
  interfaces : c.interfaces.length < 65536
  fieldCount : c.fields.length < 65536
  fields : ∀ f ∈ c.fields, f.metadata.Regular
  methodCount : c.methods.length < 65536
  methods : ∀ m ∈ c.methods, m.Regular
  metadata : c.metadata.Regular

/-- A class is regular if its file is. -/
theorem regular_of_ofFile {f : ClassFile} {c : ClassTree} (hf : f.Regular)
    (h : ofFile f = .ok c) : c.Regular := by
  have hread := readFrom_of_ofFile h
  have hinterfaces := mapM_eq_ok_iff.1 hread.interfaces
  have hfields := mapM_eq_ok_iff.1 hread.fields
  have hmethods := mapM_eq_ok_iff.1 hread.methods
  refine
    { version := hread.version ▸ hf.version
      constants := EntryPool.regular_of_ofPool hf.constants hread.constants
      interfaces := hinterfaces.length_eq ▸ hf.interfaces
      fieldCount := hfields.length_eq ▸ hf.fieldCount
      fields := fun field hfield => ?_
      methodCount := hmethods.length_eq ▸ hf.methodCount
      methods := fun method hmethod => ?_
      metadata := Metadata.regular_of_ofAttributes hf.attributeCount hf.attributes hread.metadata }
  · obtain ⟨m, hm, hmember⟩ := exists_of_forall₂_right hfields hfield
    exact FieldTree.regular_of_ofMember (hf.fields m hm) hmember
  · obtain ⟨m, hm, hmember⟩ := exists_of_forall₂_right hmethods hmethod
    exact MethodTree.regular_of_ofMember (hf.methods m hm) hmember

/-- A class tree that has been read may be read again. -/
theorem regular_of_decode {input : Bytes} {c : ClassTree} (h : decode input = .ok c) :
    c.Regular := by
  obtain ⟨f, hf, h⟩ := bind_eq_ok_iff.1 h
  exact regular_of_ofFile (ClassFile.regular_of_ofBytes hf) h

/-! ## Having room -/

/-- The texts of everything but the entries of the pool. -/
def bodyTexts (c : ClassTree) : List String :=
  [c.name] ++ (c.superName.toList ++ (c.interfaces ++ (c.fields.flatMap FieldTree.texts ++
    (c.methods.flatMap MethodTree.texts ++ c.metadata.texts))))

/-- All texts of a class, each of which gets a constant. -/
def texts (c : ClassTree) : List String :=
  c.constants.toList.flatMap (fun item => item.2.texts) ++ c.bodyTexts

/-- The attributes can be told by the fields that announce their lengths: tables of local variables
and lists of annotations by sixteen bits, and the bytes of annotations by thirty-two. -/
structure AttributesFit (c : ClassTree) : Prop where
  fields : ∀ f ∈ c.fields, f.metadata.Fits
  methods : ∀ m ∈ c.methods, m.Fits
  metadata : c.metadata.Fits

/-- Everything whose length is announced has room in the field that announces it. -/
structure Fits (c : ClassTree) : Prop where
  texts : ∀ s ∈ c.texts, Modified.Fits s
  attributes : c.AttributesFit

/-- The class tree is the other one, except that there may be more constants behind the old ones. -/
structure Extends (m c : ClassTree) : Prop where
  same : m = { c with constants := m.constants }
  constants : c.constants.toList <+: m.constants.toList

/-! ## Writing and reading back -/

/-- The slot of the super class says whether there is one. -/
theorem writes_superSlot (superName : Option String) :
    Writes (superSlot superName) superName.toList fun p i => readSuper p i = .ok superName := by
  cases superName with
  | none => exact Writes.pure fun _ => rfl
  | some name =>
    refine (PoolBuilder.writes_className name).mono fun p i hi => ?_
    rw [readSuper, if_neg hi.1, hi.2]
    rfl

/-- Interfaces are written as slots, which lead to their names. -/
theorem writes_interfaces (names : List String) :
    Writes (names.mapM className) names fun p is => names.length = is.length ∧
      is.mapM p.className = .ok names := by
  have h := Writes.mapM (l := names) fun name _ => PoolBuilder.writes_className name
  rw [List.flatMap_singleton'] at h
  refine h.mono fun p is his => ⟨his.length_eq, mapM_eq_ok_iff.2 ?_⟩
  exact (his.imp fun _ _ h => h.2).flip

/-- Everything about a class but its pool. -/
def buildBody (c : ClassTree) : Build (ConstantPool → ClassFile) := do
  let thisClass ← className c.name
  let superClass ← superSlot c.superName
  let interfaces ← c.interfaces.mapM className
  let fields ← c.fields.mapM FieldTree.toMember
  let methods ← c.methods.mapM MethodTree.toMember
  let attributes ← c.metadata.toAttributes
  pure fun constants =>
    { version := c.version, constants, access := c.access, thisClass, superClass, interfaces,
      fields, methods, attributes }

/-- The pool is seeded before anything else is asked for. -/
theorem build_eq (c : ClassTree) : c.build = (do
    PoolBuilder.seed c.constants
    c.buildBody) := rfl

/-- What is built besides the pool is read back exactly if the attributes can be told. -/
theorem writes_buildBody {c : ClassTree} (h : c.Regular) :
    Writes c.buildBody c.bodyTexts fun p file => (file p).constants = p ∧
      ∀ entries, EntryPool.ofPool p = .ok entries → p.Regular → ∀ back,
        (file p).Regular ∧ ofFile (file p) = .ok back ↔
          c.AttributesFit ∧ back = { c with constants := entries } := by
  refine (PoolBuilder.writes_className c.name).bind fun thisClass => ?_
  refine (writes_superSlot c.superName).bind fun superClass => ?_
  refine (writes_interfaces c.interfaces).bind fun interfaces => ?_
  refine (Writes.mapM fun f hf => FieldTree.writes_toMember (h.fields f hf)).bind fun fields => ?_
  refine (Writes.mapM fun m hm => MethodTree.writes_toMember (h.methods m hm)).bind fun methods =>
    ?_
  refine (Metadata.writes_toAttributes h.metadata).map ?_
  intro p attributes hattributes hmethods hfields hinterfaces hsuper hthis
  refine ⟨rfl, fun entries hentries hp back => ?_⟩
  have hfields' := fun fs => forall_and_mapM_eq_ok_iff hfields (k := fs)
  have hmethods' := fun ms => forall_and_mapM_eq_ok_iff hmethods (k := ms)
  rw [ofFile_eq]
  -- The parts are read one after the other, so both directions go through them in that order.
  constructor
  · rintro ⟨hregular, hread⟩
    obtain ⟨entries', hentries', hread⟩ := bind_eq_ok_iff.1 hread
    cases hentries.symm.trans hentries'
    obtain ⟨superName, hsuperName, hread⟩ := bind_eq_ok_iff.1 hread
    cases hsuper.symm.trans hsuperName
    obtain ⟨names, hnames, hread⟩ := bind_eq_ok_iff.1 hread
    cases hinterfaces.2.symm.trans hnames
    obtain ⟨fs, hfs, hread⟩ := bind_eq_ok_iff.1 hread
    obtain ⟨hfitFields, rfl⟩ := (hfields' fs).1 ⟨hregular.fields, hfs⟩
    obtain ⟨ms, hms, hread⟩ := bind_eq_ok_iff.1 hread
    obtain ⟨hfitMethods, rfl⟩ := (hmethods' ms).1 ⟨hregular.methods, hms⟩
    obtain ⟨metadata, hmetadata, hread⟩ := bind_eq_ok_iff.1 hread
    obtain ⟨hfitMetadata, rfl⟩ := (hattributes.2 metadata).1 ⟨hregular.attributes, hmetadata⟩
    obtain ⟨name, hname, rfl⟩ := map_eq_ok_iff.1 hread
    cases hthis.2.symm.trans hname
    exact ⟨⟨hfitFields, hfitMethods, hfitMetadata⟩, rfl⟩
  · rintro ⟨hfit, rfl⟩
    obtain ⟨hregularFields, hfs⟩ := (hfields' _).2 ⟨hfit.fields, rfl⟩
    obtain ⟨hregularMethods, hms⟩ := (hmethods' _).2 ⟨hfit.methods, rfl⟩
    obtain ⟨hregularAttributes, hmetadata⟩ := (hattributes.2 _).2 ⟨hfit.metadata, rfl⟩
    refine ⟨?_, ?_⟩
    · exact
        { version := h.version
          constants := hp
          interfaces := hinterfaces.1 ▸ h.interfaces
          fieldCount := hfields.length_eq ▸ h.fieldCount
          fields := hregularFields
          methodCount := hmethods.length_eq ▸ h.methodCount
          methods := hregularMethods
          attributeCount := hattributes.1
          attributes := hregularAttributes }
    · refine bind_eq_ok_iff.2 ⟨entries, hentries, bind_eq_ok_iff.2 ⟨_, hsuper, ?_⟩⟩
      refine bind_eq_ok_iff.2 ⟨_, hinterfaces.2, bind_eq_ok_iff.2 ⟨_, hfs, ?_⟩⟩
      refine bind_eq_ok_iff.2 ⟨_, hms, bind_eq_ok_iff.2 ⟨_, hmetadata, ?_⟩⟩
      exact map_eq_ok_iff.2 ⟨_, hthis.2, rfl⟩

/-- The file of a class tree: which texts are in its pool, and when it is read back. -/
theorem of_toFile_eq_ok {c : ClassTree} (hc : c.Regular) {f : ClassFile} (h : c.toFile = .ok f) :
    (f.Spelled ↔ ∀ s ∈ c.texts, Modified.Fits s) ∧
      ∃ entries : EntryPool, c.constants.toList <+: entries.toList ∧ ∀ back,
        f.Regular ∧ ofFile f = .ok back ↔
          c.AttributesFit ∧ back = { c with constants := entries } := by
  obtain ⟨⟨file, built⟩, hbuild, rfl⟩ := map_eq_ok_iff.1 h
  rw [build_eq] at hbuild
  obtain ⟨⟨⟩, seeded, hseed, hbody⟩ := PoolBuilder.of_bind_ok hbuild
  have hseeded := PoolBuilder.seeded_of_seed hseed
  obtain ⟨hcoherent, hgrows, hread⟩ := writes_buildBody hc seeded file built hbody hseeded.coherent
  obtain ⟨hregular, entries, hentries, hprefix⟩ := hseeded.grown hc.constants hcoherent hgrows
  obtain ⟨hconstants, hback⟩ := hread built.constants (.refl _)
  refine ⟨?_, entries, hprefix, hback entries hentries hregular⟩
  have hspells : ∀ s, built.constants.Spells s ↔ s ∈ c.texts := by
    intro s
    rw [hgrows.spells, hseeded.spells, texts, List.mem_append, List.mem_flatMap]
  constructor
  · intro hspelled s hs
    obtain ⟨i, hi⟩ := (hspells s).2 hs
    rw [Slots.find?_eq_some_iff hcoherent.laidOut, ← hconstants] at hi
    exact hspelled _ hi
  · rintro hfits ⟨slot, constant⟩ hitem
    rw [hconstants] at hitem
    cases constant with
    | utf8 s =>
      exact hfits s ((hspells s).1 ⟨slot, (Slots.find?_eq_some_iff hcoherent.laidOut).2 hitem⟩)
    | _ => trivial

/-- What is written are the bytes of the file. -/
theorem encode_eq_ok_iff {c : ClassTree} {out : Bytes} :
    encode c = .ok out ↔ ∃ f, c.toFile = .ok f ∧ f.bytes = out :=
  map_eq_ok_iff

/-- A class tree that fits is given back by its bytes, with more constants behind the old ones. -/
theorem exists_decode_of_fits {c : ClassTree} (hc : c.Regular) (hfits : c.Fits) {out : Bytes}
    (h : encode c = .ok out) : ∃ f m, c.toFile = .ok f ∧ ClassFile.ofBytes out = .ok f ∧
      decode out = .ok m ∧ m.Extends c := by
  obtain ⟨f, hf, rfl⟩ := encode_eq_ok_iff.1 h
  obtain ⟨hspelled, entries, hprefix, hback⟩ := of_toFile_eq_ok hc hf
  obtain ⟨hregular, hread⟩ := (hback _).2 ⟨hfits.attributes, rfl⟩
  have hfile := ClassFile.ofBytes_bytes_iff.2 ⟨hregular, hspelled.2 hfits.texts⟩
  exact ⟨f, _, hf, hfile, bind_eq_ok_iff.2 ⟨f, hfile, hread⟩, rfl, hprefix⟩

/-- Only a class tree that fits has bytes that are read as its own file and make a class tree. -/
theorem fits_of_decode {c : ClassTree} (hc : c.Regular) {f : ClassFile} {m : ClassTree}
    (hf : c.toFile = .ok f) (hfile : ClassFile.ofBytes f.bytes = .ok f)
    (hm : decode f.bytes = .ok m) : c.Fits := by
  obtain ⟨hspelled, entries, -, hback⟩ := of_toFile_eq_ok hc hf
  obtain ⟨hregular, hspelled'⟩ := ClassFile.ofBytes_bytes_iff.1 hfile
  obtain ⟨f', hf', hread⟩ := bind_eq_ok_iff.1 hm
  cases hfile.symm.trans hf'
  exact ⟨hspelled.1 hspelled', ((hback m).1 ⟨hregular, hread⟩).1⟩

/-- The bytes of a class tree are read as the file that was written and give the class tree back
exactly if everything whose length is announced has room in the field that announces it. -/
theorem reads_back_iff {c : ClassTree} (hc : c.Regular) {out : Bytes} (h : encode c = .ok out) :
    (∃ f m, c.toFile = .ok f ∧ ClassFile.ofBytes out = .ok f ∧ decode out = .ok m ∧
      m.Extends c) ↔ c.Fits := by
  refine ⟨?_, fun hfits => exists_decode_of_fits hc hfits h⟩
  rintro ⟨f, m, hf, hfile, hm, -⟩
  obtain ⟨f', hf', rfl⟩ := encode_eq_ok_iff.1 h
  cases hf.symm.trans hf'
  exact fits_of_decode hc hf hfile hm

end ClassTree

end Crosswalk
