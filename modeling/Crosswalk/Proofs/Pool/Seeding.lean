import Crosswalk.Proofs.Pool.Building

/-!
# Entries in the slots they came from

Seeding takes all slots first, puts classes and pairs in their places next and everything that
points at them last. `seed_keeps` sums it up: in the end the constant in the slot of an entry leads
to the texts of that entry, and whatever has been added behind the entries is sound.
-/

namespace Crosswalk

/-! ## Entries -/

/-- The texts that lead to a member. -/
def MemberRef.texts (m : MemberRef) : List String :=
  [m.owner, m.name, m.descriptor]

namespace Entry

/-- The texts of an entry, all of which need constants of their own. -/
def texts : Entry → List String
  | utf8 text => [text]
  | rawUtf8 _ | integer _ | float _ | long _ | double _ | rawString _ | methodHandle _ _ => []
  | className name => [name]
  | string text => [text]
  | fieldRef member => member.texts
  | methodRef member _ => member.texts
  | nameAndType name descriptor => [name, descriptor]
  | methodType descriptor => [descriptor]
  | dynamic _ name descriptor => [name, descriptor]
  | invokeDynamic _ name descriptor => [name, descriptor]
  | moduleName name => [name]
  | packageName name => [name]

/-- A text that spells no characters is one indeed. -/
def Regular : Entry → Prop
  | rawUtf8 body => body.length < 65536 ∧ Modified.IsRaw body
  | _ => True

/-- What an entry points at by slot is there. -/
def Anchored (p : ConstantPool) : Entry → Prop
  | rawString text => ∃ body, p.find? text.toNat = some (.rawUtf8 body)
  | methodHandle _ member =>
    (∃ owner pair, p.find? member.toNat = some (.fieldRef owner pair)) ∨
      ∃ owner pair ofInterface, p.find? member.toNat = some (.methodRef owner pair ofInterface)
  | _ => True

/-- A class or a pair, which other entries may share. -/
def isShared : Entry → Bool
  | className _ | nameAndType _ _ => true
  | _ => false

/-- An entry that points at others, and which no other entry shares. -/
def isPointing : Entry → Bool
  | string _ | rawString _ | fieldRef _ | methodRef _ _ | methodHandle _ _ | methodType _ => true
  | dynamic _ _ _ | invokeDynamic _ _ _ | moduleName _ | packageName _ => true
  | _ => false

/-- An entry whose constant leads on to others. -/
def points (e : Entry) : Prop :=
  e.isShared = true ∨ e.isPointing = true

/-- The constant leads to the texts of the entry, in every pool that the given one is within. -/
structure Stands (p : ConstantPool) (e : Entry) (c : Constant) : Prop where
  regular : e.Regular → c.Regular
  resolves : ∀ q, p.Within q → e.Anchored q → Entry.ofConstant q c = .ok e

theorem Stands.mono {p q : ConstantPool} {e : Entry} {c : Constant} (h : e.Stands p c)
    (hpq : p.Within q) : e.Stands q c :=
  ⟨h.regular, fun r hr => h.resolves r (hpq.trans hr)⟩

/-- An entry that points at nothing is its own constant. -/
theorem stands_holding {e : Entry} (h : ¬ e.points) (p : ConstantPool) :
    e.Stands p (PoolBuilder.holding e) := by
  cases e <;> first
    | exact ⟨id, fun _ _ _ => rfl⟩
    | exact absurd (by simp [points, isShared, isPointing]) h

/-- Entries that point are held by a number. -/
theorem holding_of_points {e : Entry} (h : e.points) : PoolBuilder.holding e = .integer 0 := by
  cases e <;> first | rfl | simp [points, isShared, isPointing] at h

/-- Only texts that are entries themselves hold their own slots. -/
theorem holding_eq_utf8_iff {e : Entry} {s : String} :
    PoolBuilder.holding e = .utf8 s ↔ ¬ e.points ∧ s ∈ e.texts := by
  cases e <;> simp [PoolBuilder.holding, points, isShared, isPointing, texts, eq_comm]

/-- Apart from entries that wait for their constants, only a number holds its slot as a number. -/
theorem holding_eq_integer_iff {e : Entry} (h : ¬ e.points) {n : Int32} :
    PoolBuilder.holding e = .integer n ↔ e = .integer n := by
  revert h
  cases e <;> simp [PoolBuilder.holding, points, isShared, isPointing]

end Entry

/-- A constant that leads on to others. -/
def Constant.Pointing : Constant → Prop
  | .utf8 _ | .rawUtf8 _ | .integer _ | .float _ | .long _ | .double _ => False
  | _ => True

namespace PoolBuilder

/-! ## The constant of an entry -/

/-- The constant of an entry that points at others, whose constants are added where needed. -/
def spell : Entry → Build Constant
  | .className name => do pure (.className (← text name))
  | .nameAndType name descriptor => do pure (.nameAndType (← text name) (← text descriptor))
  | .string s => do pure (.string (← text s))
  | .rawString s => pure (.string s)
  | .fieldRef member => do
    let owner ← className member.owner
    pure (.fieldRef owner (← pair member.name member.descriptor))
  | .methodRef member ofInterface => do
    let owner ← className member.owner
    pure (.methodRef owner (← pair member.name member.descriptor) ofInterface)
  | .methodHandle kind member => pure (.methodHandle kind member)
  | .methodType descriptor => do pure (.methodType (← text descriptor))
  | .dynamic bootstrap name descriptor => do pure (.dynamic bootstrap (← pair name descriptor))
  | .invokeDynamic bootstrap name descriptor => do
    pure (.invokeDynamic bootstrap (← pair name descriptor))
  | .moduleName name => do pure (.moduleName (← text name))
  | .packageName name => do pure (.packageName (← text name))
  | entry => pure (holding entry)

/-- Lets a class or a pair be shared. -/
def share (slot : Nat) : Constant → Build Unit
  | .className name => shareClass name (UInt16.ofNat slot)
  | .nameAndType name descriptor => sharePair name descriptor (UInt16.ofNat slot)
  | _ => pure ()

/-- Puts the constant of an entry in its place. -/
def settleEntry (slot : Nat) (e : Entry) : Build Unit := do
  let c ← spell e
  share slot c
  settle slot c

/-- The first round settles classes and pairs. -/
theorem settleShared_eq (slot : Nat) (e : Entry) :
    settleShared slot e = if e.isShared then settleEntry slot e else pure () := by
  cases e <;> simp [settleShared, settleEntry, spell, share, Entry.isShared]

/-- The second round settles the others that point. -/
theorem settlePointing_eq (slot : Nat) (e : Entry) :
    settlePointing slot e = if e.isPointing then settleEntry slot e else pure () := by
  cases e <;> simp [settlePointing, settleEntry, spell, share, Entry.isPointing]

/-- The entries whose slots are only held at first, in the order in which they are settled. -/
def tasks (entries : EntryPool) : List (Nat × Entry) :=
  entries.toList.filter (·.2.isShared) ++ entries.toList.filter (·.2.isPointing)

/-- A step that is skipped for some items is a step for the others. -/
theorem forM_filter {α : Type} {f : α → Build Unit} {p : α → Bool} (l : List α) :
    (l.forM fun a => if p a then f a else pure ()) = (l.filter p).forM f := by
  induction l with
  | nil => rfl
  | cons a l ih =>
    cases hp : p a with
    | true =>
      rw [List.filter_cons_of_pos hp]
      simp only [List.forM_eq_forM, List.forM_cons, hp, if_true] at ih ⊢
      rw [ih]
    | false =>
      rw [List.filter_cons_of_neg (by simp [hp])]
      simp only [List.forM_eq_forM, List.forM_cons, hp] at ih ⊢
      simpa using ih

/-- So the pool is seeded in two steps: all slots are taken, and then filled. -/
theorem seed_eq (entries : EntryPool) :
    seed entries = (do
      entries.toList.forM fun item => reserve item.1 item.2
      (tasks entries).forM fun item => settleEntry item.1 item.2) := by
  rw [seed, tasks]
  simp only [settleShared_eq, settlePointing_eq, forM_filter, List.forM_eq_forM,
    List.forM_append]

/-- The constant that is spelled leads to the texts of the entry. -/
theorem writes_spell {e : Entry} (h : e.points) :
    Writes (spell e) e.texts fun p c =>
      c.Pointing ∧ (e.Anchored p → Entry.ofConstant p c = .ok e) := by
  simp only [Entry.ofConstant_eq_ok_iff]
  have hmember : ∀ (m : MemberRef) {make : Index → Index → Constant} {e : Entry},
      (∀ i j, (make i j).Pointing) →
      (∀ p i j, Entry.member p i j = .ok m → Entry.Leads p (make i j) e) →
      Writes (do
        let owner ← className m.owner
        pure (make owner (← pair m.name m.descriptor))) m.texts fun p c =>
        c.Pointing ∧ (e.Anchored p → Entry.Leads p c e) := by
    intro m make e hpointing hleads
    refine (writes_className m.owner).bind fun i => (writes_pair m.name m.descriptor).map ?_
    intro p j hj hi
    exact ⟨hpointing i j, fun _ => hleads p i j (Entry.member_eq_ok_iff.2 ⟨hi.2, hj⟩)⟩
  -- A field and a method are spelled alike, up to the constant that is made of the two slots.
  cases e with
  | utf8 _ | rawUtf8 _ | integer _ | float _ | long _ | double _ =>
    simp [Entry.points, Entry.isShared, Entry.isPointing] at h
  | className name => exact (writes_text name).map fun p i hi => ⟨trivial, fun _ => .className hi⟩
  | string s => exact (writes_text s).map fun p i hi => ⟨trivial, fun _ => .string hi⟩
  | rawString i => exact Writes.pure fun p => ⟨trivial, fun ⟨_, hbody⟩ => .rawString hbody⟩
  | fieldRef m => exact hmember m (fun _ _ => trivial) fun p i j => .fieldRef
  | methodRef m ofInterface =>
    exact hmember m (fun _ _ => trivial) fun p i j => .methodRef ofInterface
  | nameAndType name descriptor =>
    refine (writes_text name).bind fun i => (writes_text descriptor).map fun p j hj hi => ?_
    exact ⟨trivial, fun _ => .nameAndType hi hj⟩
  | methodHandle kind i =>
    refine Writes.pure fun p => ⟨trivial, ?_⟩
    rintro (⟨owner, pair, hm⟩ | ⟨owner, pair, ofInterface, hm⟩)
    · exact .fieldHandle kind hm
    · exact .methodHandle kind hm
  | methodType descriptor =>
    exact (writes_text descriptor).map fun p i hi => ⟨trivial, fun _ => .methodType hi⟩
  | dynamic bootstrap name descriptor =>
    exact (writes_pair name descriptor).map fun p i hi => ⟨trivial, fun _ => .dynamic bootstrap hi⟩
  | invokeDynamic bootstrap name descriptor =>
    exact (writes_pair name descriptor).map fun p i hi =>
      ⟨trivial, fun _ => .invokeDynamic bootstrap hi⟩
  | moduleName name => exact (writes_text name).map fun p i hi => ⟨trivial, fun _ => .moduleName hi⟩
  | packageName name =>
    exact (writes_text name).map fun p i hi => ⟨trivial, fun _ => .packageName hi⟩

/-! ## Settling -/

/-- Some entries have got their constants; every constant elsewhere has stayed, and what has been
added is sound. -/
structure Settles (items : List (Nat × Entry)) (b b' : PoolBuilder) : Prop where
  coherent : b'.Coherent
  within : b.constants.Within b'.constants
  kept : ∀ i c, i ∉ items.map Prod.fst → b.constants.find? i = some c →
    b'.constants.find? i = some c
  settled : ∀ item ∈ items, ∃ c, b'.constants.find? item.1 = some c ∧
    item.2.Stands b'.constants c
  spells : ∀ s, b'.constants.Spells s ↔ b.constants.Spells s ∨ ∃ item ∈ items, s ∈ item.2.texts
  sound : ∀ i c, b'.constants.find? i = some c →
    i ∈ items.map Prod.fst ∨ b.constants.find? i = some c ∨ c.Sound b'.constants

theorem Settles.refl {b : PoolBuilder} (hb : b.Coherent) : Settles [] b b where
  coherent := hb
  within := .refl _
  kept _ _ _ h := h
  settled := by simp
  spells := by simp
  sound _ _ h := .inr (.inl h)

/-- Entries that have got their constants keep them when others get theirs. -/
theorem Settles.trans {l m : List (Nat × Entry)} {b b' b'' : PoolBuilder} (h : Settles l b b')
    (h' : Settles m b' b'') (hdisjoint : ∀ item ∈ l, item.1 ∉ m.map Prod.fst) :
    Settles (l ++ m) b b'' where
  coherent := h'.coherent
  within := h.within.trans h'.within
  kept i c hi hc := by
    rw [List.map_append, List.mem_append, not_or] at hi
    exact h'.kept i c hi.2 (h.kept i c hi.1 hc)
  settled item hitem := by
    rcases List.mem_append.1 hitem with hl | hm
    · obtain ⟨c, hc, hstands⟩ := h.settled item hl
      exact ⟨c, h'.kept _ c (hdisjoint item hl) hc, hstands.mono h'.within⟩
    · exact h'.settled item hm
  spells s := by
    rw [h'.spells, h.spells, or_assoc]
    refine or_congr_right ?_
    simp only [List.mem_append, or_and_right, exists_or]
  sound i c hc := by
    rw [List.map_append, List.mem_append]
    rcases h'.sound i c hc with hi | hc | hnew
    · exact .inl (.inr hi)
    · rcases h.sound i c hc with hi | hc | hnew
      · exact .inl (.inl hi)
      · exact .inr (.inl hc)
      · exact .inr (.inr (hnew.mono h'.within))
    · exact .inr (.inr hnew)

/-- What is found in a pool of a builder has a slot that can be written. -/
theorem Coherent.toNat_ofNat {b : PoolBuilder} (hb : b.Coherent) {slot : Nat} {c : Constant}
    (h : b.constants.find? slot = some c) : (UInt16.ofNat slot).toNat = slot :=
  UInt16.toNat_ofNat_of_lt' (Nat.lt_trans (hb.lt_next h) hb.limit)

section Settle

variable {b : PoolBuilder} {slot : Nat} {c : Constant}

/-- A slot that was held may get any constant. -/
theorem within_settle (hb : b.Coherent) (hheld : b.constants.find? slot = some (.integer 0))
    (c : Constant) : b.constants.Within (b.constants.set slot c) := by
  intro i d hd hfind
  rw [Slots.find?_set hb.laidOut hheld]
  split
  · next hi =>
    subst hi
    rw [hheld] at hfind
    cases hfind
    exact absurd rfl hd
  · exact hfind

/-- A constant that points to others brings no text with it. -/
theorem spells_settle (hb : b.Coherent) (hheld : b.constants.find? slot = some (.integer 0))
    (hc : c.Pointing) {s : String} :
    ConstantPool.Spells (b.constants.set slot c) s ↔ b.constants.Spells s := by
  constructor
  · rintro ⟨i, hi⟩
    rw [Slots.find?_set hb.laidOut hheld] at hi
    split at hi
    · cases hi
      exact hc.elim
    · exact ⟨i, hi⟩
  · rintro ⟨i, hi⟩
    exact ⟨i, within_settle hb hheld c _ _ (by simp) hi⟩

/-- Putting a constant into a slot that was held for it keeps the tables true. -/
theorem Coherent.settle (hb : b.Coherent) (hheld : b.constants.find? slot = some (.integer 0))
    (hc : c.Pointing) : Coherent { b with constants := b.constants.set slot c } := by
  have hwithin := within_settle hb hheld c
  exact
    { laidOut := hb.laidOut.set hheld (by cases c <;> first | rfl | exact hc.elim)
      limit := by rw [Slots.next_set]; exact hb.limit
      texts := fun s i hi => hwithin _ _ (by simp) (hb.texts s i hi)
      classes := fun n i hi => hwithin _ _ (by simp) (hb.classes n i hi)
      pairs := fun n d i hi => hwithin _ _ (by simp) (hb.pairs n d i hi) }

/-- Sharing changes tables only, and keeps them true once the constant is in its slot. -/
theorem of_share_eq_ok {b' : PoolBuilder} {constants : ConstantPool}
    (h : share slot c b = .ok ((), b')) (hslot : constants.find? (UInt16.ofNat slot).toNat = some c)
    (hb : Coherent { b with constants }) :
    b'.constants = b.constants ∧ Coherent { b' with constants } := by
  cases c with
  | className n =>
    cases h
    exact ⟨rfl, hb.withClasses hslot fun _ _ => of_getElem?_insertIfNew⟩
  | nameAndType n d =>
    cases h
    exact ⟨rfl, hb.withPairs hslot fun _ _ => of_getElem?_insertIfNew⟩
  | _ =>
    cases h
    exact ⟨rfl, hb⟩

end Settle

/-- An entry whose slot is held gets its constant. -/
theorem settles_settleEntry {slot : Nat} {e : Entry} {b b'' : PoolBuilder} (he : e.points)
    (hb : b.Coherent) (hheld : b.constants.find? slot = some (.integer 0))
    (h : settleEntry slot e b = .ok ((), b'')) : Settles [(slot, e)] b b'' := by
  obtain ⟨c, b', hspell, h⟩ := of_bind_ok h
  obtain ⟨⟨⟩, shared, hshare, hsettle⟩ := of_bind_ok h
  obtain ⟨hb', hgrows, hc⟩ := writes_spell he b c b' hspell hb
  have hpointing := (hc b'.constants (.refl _)).1
  have hheld' := hgrows.kept _ _ hheld
  have hfind := Slots.find?_set (a := c) hb'.laidOut hheld'
  have hwithin := within_settle hb' hheld' c
  have hslot : (b'.constants.set slot c).find? (UInt16.ofNat slot).toNat = some c := by
    rw [hb'.toNat_ofNat hheld', hfind, if_pos rfl]
  obtain ⟨hconstants, hcoherent⟩ := of_share_eq_ok hshare hslot (hb'.settle hheld' hpointing)
  have hb'' : b'' = { shared with constants := b'.constants.set slot c } := by
    cases hsettle
    rw [hconstants]
  subst hb''
  refine
    { coherent := hcoherent
      within := hgrows.within.trans hwithin
      kept := fun i d hi hd => ?_
      settled := fun item hitem => ?_
      spells := fun s => ?_
      sound := fun i d hd => ?_ }
  · have hne : i ≠ slot := by simpa using hi
    rw [hfind, if_neg hne]
    exact hgrows.kept i d hd
  · cases List.mem_singleton.1 hitem
    refine ⟨c, by rw [hfind, if_pos rfl], ?_, fun q hq => (hc q (hwithin.trans hq)).2⟩
    intro _
    cases c <;> trivial
  · rw [spells_settle hb' hheld' hpointing, hgrows.spells]
    simp
  · rw [hfind] at hd
    split at hd
    · next hi => exact .inl (by simp [hi])
    · rcases hgrows.sound i d hd with hold | hnew
      · exact .inr (.inl hold)
      · exact .inr (.inr (hnew.mono hwithin))

/-- Entries whose slots are held get their constants one after the other. -/
theorem settles_forM {items : List (Nat × Entry)} {b b' : PoolBuilder} (hb : b.Coherent)
    (hpoints : ∀ item ∈ items, item.2.points) (hnodup : (items.map Prod.fst).Nodup)
    (hheld : ∀ item ∈ items, b.constants.find? item.1 = some (.integer 0))
    (h : (items.forM fun item => settleEntry item.1 item.2) b = .ok ((), b')) :
    Settles items b b' := by
  induction items generalizing b with
  | nil =>
    cases h
    exact .refl hb
  | cons item items ih =>
    obtain ⟨⟨⟩, middle, hfirst, hrest⟩ := of_bind_ok h
    rw [List.map_cons, List.nodup_cons] at hnodup
    have hstep := settles_settleEntry (hpoints item List.mem_cons_self) hb
      (hheld item List.mem_cons_self) hfirst
    refine hstep.trans (ih hstep.coherent ?_ hnodup.2 ?_ hrest) ?_
    · exact fun item hitem => hpoints item (List.mem_cons_of_mem _ hitem)
    · intro other hother
      refine hstep.kept _ _ ?_ (hheld other (List.mem_cons_of_mem _ hother))
      intro hslot
      rw [List.map_singleton, List.mem_singleton] at hslot
      exact hnodup.1 (hslot ▸ List.mem_map_of_mem hother)
    · intro other hother
      cases List.mem_singleton.1 hother
      exact hnodup.1

/-! ## Taking all slots -/

/-- What holds the slot of an entry takes up as many slots as the entry. -/
theorem next_push_holding (p : ConstantPool) (e : Entry) :
    (p.push (holding e)).next = p.next + Wide.width e :=
  congrArg (p.next + ·) (width_holding e)

/-- An entry gets its slot back if that is the next one. A constant of its width holds it. -/
theorem of_reserve_eq_ok {e : Entry} {b b' : PoolBuilder} (hb : b.Coherent)
    (h : reserve b.constants.next e b = .ok ((), b')) :
    b'.Coherent ∧ b'.constants = b.constants.push (holding e) := by
  obtain ⟨⟨slot, pushed⟩, hpush, h⟩ := bind_eq_ok_iff.1 h
  have hpushed := hb.push hpush
  obtain ⟨hslot, hconstants, -⟩ := of_push_eq_ok hpush
  have hfind : pushed.constants.find? slot.toNat = some (holding e) := by
    rw [hconstants, Slots.find?_push hb.laidOut, if_pos hslot]
  rw [← hslot, UInt16.ofNat_toNat] at h
  cases e with
  | utf8 s =>
    cases h
    exact ⟨hpushed.withTexts hfind fun _ _ => of_getElem?_insertIfNew, by rw [hconstants]⟩
  | _ =>
    cases h
    exact ⟨hpushed, by rw [hconstants]⟩

/-- Entries without a gap get the slots they have had. -/
theorem of_forM_reserve_eq_ok {items : List (Nat × Entry)} {b b' : PoolBuilder} {stop : Nat}
    (hb : b.Coherent) (hlaid : Slots.Laid b.constants.next items stop)
    (h : (items.forM fun item => reserve item.1 item.2) b = .ok ((), b')) :
    b'.Coherent ∧ b'.constants.toList =
      b.constants.toList ++ items.map fun item => (item.1, holding item.2) := by
  induction items generalizing b with
  | nil =>
    cases h
    exact ⟨hb, by simp⟩
  | cons item items ih =>
    obtain ⟨slot, e⟩ := item
    obtain ⟨rfl, hlaid⟩ := hlaid
    obtain ⟨⟨⟩, middle, hfirst, hrest⟩ := of_bind_ok h
    obtain ⟨hmiddle, hconstants⟩ := of_reserve_eq_ok hb hfirst
    obtain ⟨hb', hlist⟩ := ih hmiddle (by rw [hconstants, next_push_holding]; exact hlaid) hrest
    refine ⟨hb', ?_⟩
    rw [hlist, hconstants, Slots.toList_push, List.append_assoc, List.map_cons]
    rfl

/-! ## Seeding -/

instance : LawfulWide Entry := ⟨fun e => by cases e <;> simp [Wide.width, Entry.width]⟩

/-- No slot comes up twice among the entries to be settled. -/
theorem nodup_tasks (entries : EntryPool) : ((tasks entries).map Prod.fst).Nodup := by
  have hslots : (entries.toList.map Prod.fst).Nodup :=
    List.pairwise_map.2 ((Slots.Laid.pairwise entries.laidOut).imp Nat.ne_of_lt)
  rw [tasks, List.map_append, List.nodup_append]
  refine ⟨hslots.sublist (List.filter_sublist.map _),
    hslots.sublist (List.filter_sublist.map _), ?_⟩
  intro slot hslot other hother
  rintro rfl
  obtain ⟨⟨slot, e⟩, he, rfl⟩ := List.mem_map.1 hslot
  obtain ⟨⟨slot', e'⟩, he', hsame⟩ := List.mem_map.1 hother
  cases hsame
  rw [List.mem_filter] at he he'
  obtain rfl : e = e' := Slots.Laid.unique entries.laidOut he.1 he'.1
  obtain ⟨-, he⟩ := he
  obtain ⟨-, he'⟩ := he'
  cases e <;> simp [Entry.isShared, Entry.isPointing] at he he'

/-- The tasks are the entries that point. -/
theorem mem_tasks {entries : EntryPool} {item : Nat × Entry} :
    item ∈ tasks entries ↔ item ∈ entries.toList ∧ item.2.points := by
  rw [tasks, List.mem_append, List.mem_filter, List.mem_filter, Entry.points, and_or_left]

/-- What seeding has built: a constant for every entry, and what these need besides. -/
structure Seeded (entries : EntryPool) (b : PoolBuilder) : Prop where
  coherent : b.Coherent
  stands : ∀ item ∈ entries.toList, ∃ c, b.constants.find? item.1 = some c ∧
    item.2.Stands b.constants c
  spells : ∀ s, b.constants.Spells s ↔ ∃ item ∈ entries.toList, s ∈ item.2.texts
  sound : ∀ i c, b.constants.find? i = some c →
    (∃ e, (i, e) ∈ entries.toList) ∨ c.Sound b.constants

/-- Every entry gets a constant in the slot it came from. -/
theorem seeded_of_seed {entries : EntryPool} {b : PoolBuilder}
    (h : seed entries empty = .ok ((), b)) : Seeded entries b := by
  rw [seed_eq] at h
  obtain ⟨⟨⟩, held, hreserve, hsettle⟩ := of_bind_ok h
  obtain ⟨hheld, hlist⟩ := of_forM_reserve_eq_ok coherent_empty entries.laidOut hreserve
  have hfind : ∀ i c, held.constants.find? i = some c ↔
      ∃ e, (i, e) ∈ entries.toList ∧ holding e = c := by
    intro i c
    rw [Slots.find?_eq_some_iff hheld.laidOut, hlist]
    simp [empty]
  -- What is held is final for an entry that does not point, and keeps the place of any other.
  have hsettles := settles_forM hheld (fun item hitem => (mem_tasks.1 hitem).2)
    (nodup_tasks entries)
    (fun item hitem => (hfind _ _).2
      ⟨item.2, (mem_tasks.1 hitem).1, Entry.holding_of_points (mem_tasks.1 hitem).2⟩) hsettle
  refine ⟨hsettles.coherent, fun item hitem => ?_, fun s => ?_, fun i c hc => ?_⟩
  · by_cases hpoints : item.2.points
    · exact hsettles.settled item (mem_tasks.2 ⟨hitem, hpoints⟩)
    · refine ⟨holding item.2, hsettles.kept _ _ ?_ ((hfind _ _).2 ⟨item.2, hitem, rfl⟩),
        Entry.stands_holding hpoints _⟩
      intro htask
      obtain ⟨other, hother, hslot⟩ := List.mem_map.1 htask
      obtain ⟨hother, hother'⟩ := mem_tasks.1 hother
      have hsame : other.2 = item.2 :=
        Slots.Laid.unique entries.laidOut (hslot ▸ hother : (item.1, other.2) ∈ _) hitem
      exact hpoints (hsame ▸ hother')
  · rw [hsettles.spells]
    constructor
    · rintro (⟨i, hi⟩ | ⟨item, hitem, hs⟩)
      · obtain ⟨e, he, hholding⟩ := (hfind _ _).1 hi
        exact ⟨(i, e), he, (Entry.holding_eq_utf8_iff.1 hholding).2⟩
      · exact ⟨item, (mem_tasks.1 hitem).1, hs⟩
    · rintro ⟨item, hitem, hs⟩
      by_cases hpoints : item.2.points
      · exact .inr ⟨item, mem_tasks.2 ⟨hitem, hpoints⟩, hs⟩
      · exact .inl ⟨item.1, (hfind _ _).2
          ⟨item.2, hitem, Entry.holding_eq_utf8_iff.2 ⟨hpoints, hs⟩⟩⟩
  · rcases hsettles.sound i c hc with hi | hc | hnew
    · obtain ⟨item, hitem, rfl⟩ := List.mem_map.1 hi
      exact .inl ⟨item.2, (mem_tasks.1 hitem).1⟩
    · obtain ⟨e, he, -⟩ := (hfind _ _).1 hc
      exact .inl ⟨e, he⟩
    · exact .inr hnew

end PoolBuilder

end Crosswalk
