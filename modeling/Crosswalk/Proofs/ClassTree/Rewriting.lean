import Crosswalk.Proofs.ClassTree.Bare
import Crosswalk.Proofs.ClassTree.Needs
import Crosswalk.Proofs.Pool.Room

/-!
# Writing again what has been read

A class that is read finds all it needs in its own pool, so that it is written again without a new
constant, whoever has written it first (`ClassTree.toFile_keeps_slots`). What has been written here
is even written again as it is (`ClassTree.toFile_of_ofFile`): its pool leaves no choice, so the
second run gets in every place the slot that the first one got.
-/

namespace Crosswalk

open PoolBuilder (Asks Bears Writes)

namespace ClassTree

variable {c m : ClassTree} {f : ClassFile}

/-! ## Nothing new -/

/-- A class whose entries are all it needs is built from nothing else. -/
theorem exists_built (hclosed : c.constants.Closed)
    (hroom : c.constants.next ≤ PoolBuilder.slotLimit)
    (hneeds : ∀ n ∈ c.needs, c.constants.Provides n) :
    ∃ b file, PoolBuilder.seed c.constants .empty = .ok ((), b) ∧ c.buildBody b = .ok (file, b) ∧
      b.constants.next = c.constants.next ∧ c.toFile = .ok (file b.constants) := by
  obtain ⟨b, hseed, hnext⟩ := PoolBuilder.exists_seed hclosed hroom
  have hbears := PoolBuilder.bears_of_seed hseed
  obtain ⟨file, hfile⟩ := (asks_buildBody c).rests fun n hn => hbears.knows (hneeds n hn)
  refine ⟨b, file, hseed, hfile, hnext, map_eq_ok_iff.2 ⟨(file, b), ?_, rfl⟩⟩
  rw [build_eq]
  exact (PoolBuilder.bind_of_ok hseed).trans hfile

/-- A class that has been read is built again from nothing but its entries. -/
theorem exists_rebuilt (hf : f.Regular) (h : ofFile f = .ok c) :
    ∃ b file, PoolBuilder.seed c.constants .empty = .ok ((), b) ∧ c.buildBody b = .ok (file, b) ∧
      b.constants.next = f.constants.next ∧ EntryPool.ofPool b.constants = .ok c.constants ∧
        c.toFile = .ok (file b.constants) := by
  have hregular := (regular_of_ofFile hf h).constants
  have hread := readFrom_of_ofFile h
  have hlaid := hf.constants.laidOut
  obtain ⟨hnext, -⟩ := EntryPool.of_ofPool_eq_ok hlaid hread.constants
  have hroom : c.constants.next ≤ PoolBuilder.slotLimit := by
    rw [hnext]
    exact Nat.le_of_lt_succ hf.constants.limit
  obtain ⟨b, file, hseed, hbody, hsame, htoFile⟩ := exists_built
    (EntryPool.closed_of_ofPool hlaid hread.constants) hroom fun n hn =>
      EntryPool.provides_of_meets hlaid hread.constants (hread.meetsAll n hn)
  have hseeded := PoolBuilder.seeded_of_seed hseed
  exact ⟨b, file, hseed, hbody, hsame.trans hnext, hseeded.ofPool_eq hregular hsame, htoFile⟩

/-- The names of the class, its super class and its interfaces are looked up again. -/
theorem writes_names (c : ClassTree) : ∃ texts, Writes c.buildBody texts fun p file =>
    (file p).constants = p ∧ p.className (file p).thisClass = .ok c.name ∧
      readSuper p (file p).superClass = .ok c.superName ∧
        (file p).interfaces.mapM p.className = .ok c.interfaces := by
  refine ⟨_, (PoolBuilder.writes_className c.name).bind fun thisClass =>
    (writes_superSlot c.superName).bind fun superClass =>
      (writes_interfaces c.interfaces).bind fun interfaces =>
        (Asks.mapM fun f _ => f.asks_toMember).writes.bind fun fields =>
          (Asks.mapM fun m _ => m.asks_toMember).writes.bind fun methods =>
            c.metadata.asks_toAttributes.writes.map ?_⟩
  intro p attributes _ _ _ hinterfaces hsuper hthis
  exact ⟨rfl, hthis.2, hsuper, hinterfaces.2⟩

/-- Both files have the same slots, each with the same entry, and the class, its super class and its
interfaces have the same names in both. -/
structure SameNames (f g : ClassFile) : Prop where
  next : f.constants.next = g.constants.next
  slots : f.constants.toList.map Prod.fst = g.constants.toList.map Prod.fst
  entries : ∀ slot, (f.constants.find? slot).map (Entry.ofConstant f.constants) =
    (g.constants.find? slot).map (Entry.ofConstant g.constants)
  thisClass : f.constants.className f.thisClass = g.constants.className g.thisClass
  superClass : readSuper f.constants f.superClass = readSuper g.constants g.superClass
  interfaces : f.interfaces.mapM f.constants.className = g.interfaces.mapM g.constants.className

/-- A class file that is read and makes a class tree is written again with the same slots, whatever
it was written by: there is no constant too many, and every slot leads to what it has led to. -/
theorem toFile_keeps_slots {input : Bytes} (hinput : ClassFile.ofBytes input = .ok f)
    (h : ofFile f = .ok c) : ∃ g, c.toFile = .ok g ∧ SameNames g f := by
  have hf := ClassFile.regular_of_ofBytes hinput
  have hread := readFrom_of_ofFile h
  obtain ⟨b, file, hseed, hbody, hnext, hentries, htoFile⟩ := exists_rebuilt hf h
  have hb := (PoolBuilder.seeded_of_seed hseed).coherent
  obtain ⟨texts, hwrites⟩ := writes_names c
  obtain ⟨-, -, hnames⟩ := hwrites b file b hbody hb
  obtain ⟨hconstants, hthis, hsuper, hinterfaces⟩ := hnames b.constants (.refl _)
  refine ⟨_, htoFile, ?_⟩
  refine
    { next := (congrArg Slots.next hconstants).trans hnext
      slots := ?_
      entries := fun slot => ?_
      thisClass := by rw [hconstants, hthis, hread.name]
      superClass := by rw [hconstants, hsuper, hread.superName]
      interfaces := by rw [hconstants, hinterfaces, hread.interfaces] }
  · rw [hconstants, EntryPool.slots_of_ofPool hb.laidOut hentries,
      EntryPool.slots_of_ofPool hf.constants.laidOut hread.constants]
  · rw [hconstants, EntryPool.find?_of_ofPool hb.laidOut hentries,
      EntryPool.find?_of_ofPool hf.constants.laidOut hread.constants]

/-- The bytes of a class `A` that extends `B`, and whose name is in the pool twice. -/
def doubledBytes : Bytes :=
  [0xCA, 0xFE, 0xBA, 0xBE, 0, 0, 0, 52, 0, 6, 1, 0, 1, 65, 1, 0, 1, 65, 7, 0, 2, 1, 0,
    1, 66, 7, 0, 4,
    0, 0x21, 0, 3, 0, 5, 0, 0, 0, 0, 0, 0, 0, 0]

/-- The file of that class. -/
def doubledFile : ClassFile :=
  .bare 3 5 (.ofList 1 [.utf8 "A", .utf8 "A", .className 2, .utf8 "B", .className 4])

/-- The class itself. -/
def doubled : ClassTree :=
  bare "A" (some "B") (.ofList [.utf8 "A", .utf8 "A", .className "A", .utf8 "B", .className "B"])

/-- The class points at the first of the two texts from then on, and nothing is added. -/
theorem toFile_keeps_slots_doubled :
    ClassFile.ofBytes doubledBytes = .ok doubledFile ∧ ofFile doubledFile = .ok doubled ∧
      ∃ g, doubled.toFile = .ok g ∧ SameNames g doubledFile :=
  have hfile : ClassFile.ofBytes doubledBytes = .ok doubledFile := by cbv
  have htree : ofFile doubledFile = .ok doubled := by cbv
  ⟨hfile, htree, toFile_keeps_slots hfile htree⟩

/-! ## Nothing else -/

/-- What has been written is written again as it is. -/
theorem toFile_of_ofFile (hc : c.Regular) (hfile : c.toFile = .ok f) (hf : f.Regular)
    (hm : ofFile f = .ok m) (hsame : m = { c with constants := m.constants }) :
    m.toFile = .ok f := by
  obtain ⟨⟨file, built⟩, hbuild, rfl⟩ := map_eq_ok_iff.1 hfile
  rw [build_eq] at hbuild
  obtain ⟨⟨⟩, seeded, hseed, hbody⟩ := PoolBuilder.of_bind_ok hbuild
  have hseeded := PoolBuilder.seeded_of_seed hseed
  obtain ⟨hcoherent, hgrows, -⟩ :=
    (asks_buildBody c).writes seeded file built hbody hseeded.coherent
  obtain ⟨texts, hwrites⟩ := writes_names c
  have hconstants : (file built.constants).constants = built.constants :=
    ((hwrites seeded file built hbody hseeded.coherent).2.2 _ (.refl _)).1
  have hentries := (readFrom_of_ofFile hm).constants
  rw [hconstants] at hentries
  -- The pool that has been built bears what is read from it, and so does the one that is seeded.
  have hbears := (PoolBuilder.bears_of_seed hseed).of_asks (asks_buildBody c) hbody
  obtain ⟨hback, hfull⟩ := hbears.reread
    (fun item hitem => hseeded.anchored hc.constants hgrows.kept hitem) hentries
  obtain ⟨b, again, hseed', hbody', -, hentries', -⟩ := exists_rebuilt hf hm
  have hbears' := PoolBuilder.bears_of_seed hseed'
  have hfull' := PoolBuilder.full_of_ofPool hbears'.coherent.laidOut hentries'
  have hpool := hback.constants_eq hfull hbears' hfull'
  have hagain := ((asks_buildBody c).replays seeded file built hbody).2 b
    (hback.agrees hfull hbears' hfull')
  have hbodies : m.buildBody = c.buildBody := by
    rw [hsame]
    rfl
  refine map_eq_ok_iff.2 ⟨(file, b), ?_, by rw [hpool]⟩
  rw [build_eq, hbodies]
  exact (PoolBuilder.bind_of_ok hseed').trans hagain

end ClassTree

end Crosswalk
