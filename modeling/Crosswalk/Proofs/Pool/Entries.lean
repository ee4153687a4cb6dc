import Crosswalk.Proofs.ClassFile.RoundTrip
import Crosswalk.Proofs.Pool.Seeding

/-!
# Entries of a pool and back

The entries of a pool that is read lie in the slots of its constants, and can be seeded again
(`EntryPool.regular_of_ofPool`). A pool that is built on top of seeded entries has them in the same
slots in front of everything else (`PoolBuilder.Seeded.exists_ofPool`).
-/

namespace Crosswalk

/-- What an entry and the constant it has been read from have in common. -/
structure Entry.Resembles (p : ConstantPool) (c : Constant) (e : Entry) : Prop where
  width : e.width = c.width
  anchored : e.Anchored p
  raw : ∀ body, e = .rawUtf8 body → c = .rawUtf8 body
  field : ∀ m, e = .fieldRef m → ∃ owner pair, c = .fieldRef owner pair
  method : ∀ m ofInterface, e = .methodRef m ofInterface →
    ∃ owner pair, c = .methodRef owner pair ofInterface

/-- An entry is of the same kind as its constant, and what it points at by slot is there. -/
theorem Entry.resembles_of_ofConstant {p : ConstantPool} {c : Constant} {e : Entry}
    (h : ofConstant p c = .ok e) : Resembles p c e := by
  cases ofConstant_eq_ok_iff.1 h with
  | rawString hbody => exact ⟨rfl, ⟨_, hbody⟩, by simp, by simp, by simp⟩
  | fieldHandle kind hm => exact ⟨rfl, .inl ⟨_, _, hm⟩, by simp, by simp, by simp⟩
  | methodHandle kind hm => exact ⟨rfl, .inr ⟨_, _, _, hm⟩, by simp, by simp, by simp⟩
  | _ => exact ⟨rfl, trivial, by simp, by simp, by simp⟩

namespace EntryPool

/-- Entries that are changed after they have got their slots have them still. -/
theorem map_ofList {f : Entry → Entry} (hf : ∀ e, (f e).width = e.width) (entries : List Entry) :
    (ofList entries).map f hf = ofList (entries.map f) :=
  ext_toList (congrArg Slots.toList (Slots.map_ofList hf 1 entries))

/-- Every entry of a pool that is read lies in the slot of its constant. -/
theorem of_ofPool_eq_ok {p : ConstantPool} {es : EntryPool} (hp : p.LaidOut 1)
    (h : ofPool p = .ok es) :
    es.next = p.next ∧ List.Forall₂ (fun item item' => item'.1 = item.1 ∧
      Entry.ofConstant p item.2 = .ok item'.2) p.toList es.toList := by
  obtain ⟨entries, hentries, rfl⟩ := map_eq_ok_iff.1 h
  rw [mapM_eq_ok_iff] at hentries
  obtain ⟨m, hlist, hnext, hm⟩ := Slots.toList_foldl_push (t := Slots.startingAt 1) hentries
    (fun item e he => (Entry.resembles_of_ofConstant he).width) hp
  refine ⟨hnext, ?_⟩
  rw [show (ofList entries).toList = [] ++ m from hlist, List.nil_append]
  exact hm

/-- The entry is in the slot. -/
def Has (es : EntryPool) (slot : Index) (e : Entry) : Prop :=
  (slot.toNat, e) ∈ es.toList

/-- What an entry points at by slot is among the entries. -/
def Anchors (es : EntryPool) : Entry → Prop
  | .rawString text => ∃ body, es.Has text (.rawUtf8 body)
  | .methodHandle _ member =>
    (∃ m, es.Has member (.fieldRef m)) ∨ ∃ m ofInterface, es.Has member (.methodRef m ofInterface)
  | _ => True

/-- The entries may have been read from a pool. -/
structure Regular (es : EntryPool) : Prop where
  entries : ∀ item ∈ es.toList, item.2.Regular
  anchors : ∀ item ∈ es.toList, es.Anchors item.2

/-- The entries of a pool that is read may be seeded. -/
theorem regular_of_ofPool {p : ConstantPool} {es : EntryPool} (hp : p.Regular)
    (h : ofPool p = .ok es) : es.Regular := by
  obtain ⟨-, hentries⟩ := of_ofPool_eq_ok hp.laidOut h
  have hhas : ∀ (slot : Index) (c : Constant), p.find? slot.toNat = some c →
      ∃ e, es.Has slot e ∧ Entry.ofConstant p c = .ok e := by
    intro slot c hc
    obtain ⟨⟨slot', e⟩, he, rfl, hread⟩ := exists_of_forall₂_left hentries
      ((Slots.find?_eq_some_iff hp.laidOut).1 hc)
    exact ⟨e, he, hread⟩
  refine ⟨fun item hitem => ?_, fun item hitem => ?_⟩
  · obtain ⟨⟨slot, c⟩, hc, -, hread⟩ := exists_of_forall₂_right hentries hitem
    have hresembles := Entry.resembles_of_ofConstant hread
    obtain ⟨slot', e⟩ := item
    cases e with
    | rawUtf8 body =>
      have hraw := hresembles.raw body rfl
      have hconstant := hp.constants _ hc
      simp only at hraw
      rw [hraw] at hconstant
      exact hconstant
    | _ => trivial
  · obtain ⟨⟨slot, c⟩, hc, -, hread⟩ := exists_of_forall₂_right hentries hitem
    have hanchored := (Entry.resembles_of_ofConstant hread).anchored
    obtain ⟨slot', e⟩ := item
    cases e with
    | rawString text =>
      obtain ⟨body, hbody⟩ := hanchored
      obtain ⟨e, he, hread⟩ := hhas text _ hbody
      cases Entry.ofConstant_eq_ok_iff.1 hread
      exact ⟨body, he⟩
    | methodHandle kind member =>
      rcases hanchored with ⟨owner, pair, hmember⟩ | ⟨owner, pair, ofInterface, hmember⟩
      · obtain ⟨e, he, hread⟩ := hhas member _ hmember
        cases Entry.ofConstant_eq_ok_iff.1 hread
        exact .inl ⟨_, he⟩
      · obtain ⟨e, he, hread⟩ := hhas member _ hmember
        cases Entry.ofConstant_eq_ok_iff.1 hread
        exact .inr ⟨_, ofInterface, he⟩
    | _ => trivial

end EntryPool

/-! ## Pools on top of seeded entries -/

namespace PoolBuilder

variable {es : EntryPool} {texts : List String} {b b' : PoolBuilder}

/-- Whatever is added to seeded entries, they still point at what they should. -/
theorem Seeded.anchored (h : Seeded es b) (hes : es.Regular) {p : ConstantPool}
    (hp : ∀ i c, b.constants.find? i = some c → p.find? i = some c) {item : Nat × Entry}
    (hitem : item ∈ es.toList) : item.2.Anchored p := by
  have hwithin : b.constants.Within p := fun i c _ hc => hp i c hc
  have hhas : ∀ (slot : Index) (e : Entry), es.Has slot e → e.Anchored p →
      ∃ c, p.find? slot.toNat = some c ∧ Entry.Resembles p c e := by
    intro slot e he hanchored
    obtain ⟨c, hc, hstands⟩ := h.stands _ he
    exact ⟨c, hp _ _ hc, Entry.resembles_of_ofConstant (hstands.resolves p hwithin hanchored)⟩
  have hanchors := hes.anchors item hitem
  obtain ⟨slot, e⟩ := item
  cases e with
  | rawString text =>
    obtain ⟨body, hbody⟩ := hanchors
    obtain ⟨c, hc, hresembles⟩ := hhas text _ hbody trivial
    obtain rfl := hresembles.raw body rfl
    exact ⟨body, hc⟩
  | methodHandle kind member =>
    rcases hanchors with ⟨m, hm⟩ | ⟨m, ofInterface, hm⟩
    · obtain ⟨c, hc, hresembles⟩ := hhas member _ hm trivial
      obtain ⟨owner, pair, rfl⟩ := hresembles.field m rfl
      exact .inl ⟨owner, pair, hc⟩
    · obtain ⟨c, hc, hresembles⟩ := hhas member _ hm trivial
      obtain ⟨owner, pair, rfl⟩ := hresembles.method m ofInterface rfl
      exact .inr ⟨owner, pair, ofInterface, hc⟩
  | _ => trivial

/-- A pool on top of seeded entries can be written and read, and has the entries in front. -/
theorem Seeded.grown (h : Seeded es b) (hes : es.Regular) (hb' : b'.Coherent)
    (hgrows : Grows texts b b') :
    b'.constants.Regular ∧ ∃ back, EntryPool.ofPool b'.constants = .ok back ∧
      es.toList <+: back.toList := by
  have hsettled : ∀ item ∈ es.toList, ∃ c, b'.constants.find? item.1 = some c ∧
      c.Regular ∧ Entry.ofConstant b'.constants c = .ok item.2 := by
    intro item hitem
    obtain ⟨c, hc, hstands⟩ := h.stands item hitem
    exact ⟨c, hgrows.kept _ _ hc, hstands.regular (hes.entries item hitem),
      hstands.resolves _ hgrows.within (h.anchored hes hgrows.kept hitem)⟩
  have hsound : ∀ item ∈ b'.constants.toList, item.2.Regular ∧
      ∃ e, Entry.ofConstant b'.constants item.2 = .ok e := by
    intro item hitem
    have hfind := (Slots.find?_eq_some_iff hb'.laidOut).2 hitem
    rcases hgrows.sound _ _ hfind with hold | hnew
    · rcases h.sound _ _ hold with ⟨e, he⟩ | hsound
      · obtain ⟨c, hc, hregular, hread⟩ := hsettled _ he
        cases hfind.symm.trans hc
        exact ⟨hregular, e, hread⟩
      · exact ⟨hsound.regular, (hsound.mono hgrows.within).resolves⟩
    · exact ⟨hnew.regular, hnew.resolves⟩
  refine ⟨⟨hb'.laidOut, hb'.limit, fun item hitem => (hsound item hitem).1⟩, ?_⟩
  obtain ⟨entries, hentries⟩ := exists_mapM_eq_ok fun item hitem => (hsound item hitem).2
  have hback : EntryPool.ofPool b'.constants = .ok (.ofList entries) :=
    map_eq_ok_iff.2 ⟨entries, hentries, rfl⟩
  refine ⟨_, hback, ?_⟩
  obtain ⟨-, hpaired⟩ := EntryPool.of_ofPool_eq_ok hb'.laidOut hback
  refine Slots.Laid.prefix_of_subset es.laidOut (EntryPool.laidOut _) fun item hitem => ?_
  obtain ⟨c, hc, -, hread⟩ := hsettled item hitem
  obtain ⟨⟨slot, e⟩, he, rfl, hread'⟩ := exists_of_forall₂_left hpaired
    ((Slots.find?_eq_some_iff hb'.laidOut).1 hc)
  cases hread.symm.trans hread'
  exact he

end PoolBuilder

end Crosswalk
