import Crosswalk.ClassTree.PoolBuilder
import Crosswalk.Proofs.Pool.Lookup

/-!
# What building adds to a pool

A step of building is described by three things: it leaves the tables of shared constants true
(`Coherent`), it keeps every constant where it is and adds none but the given texts and what points
at them (`Grows`), and its answer means something in every pool that the built one is within
(`Writes`). Each way of putting steps together has one lemma, so that a writer is described by the
descriptions of its parts.
-/

namespace Crosswalk

/-- A text is in the pool. -/
def ConstantPool.Spells (p : ConstantPool) (s : String) : Prop :=
  ∃ i, p.find? i = some (.utf8 s)

/-- A constant that may be added behind the entries of a class. -/
structure Constant.Sound (p : ConstantPool) (c : Constant) : Prop where
  resolves : ∃ e, Entry.ofConstant p c = .ok e
  regular : c.Regular
  settled : c ≠ .integer 0

theorem Constant.Sound.mono {p q : ConstantPool} {c : Constant} (h : c.Sound p) (hpq : p.Within q) :
    c.Sound q := by
  obtain ⟨e, he⟩ := h.resolves
  exact ⟨⟨e, hpq.ofConstant he⟩, h.regular, h.settled⟩

namespace PoolBuilder

/-! ## Builders whose tables are true -/

/-- The constants leave no gap, and every shared one is where its table says. -/
structure Coherent (b : PoolBuilder) : Prop where
  laidOut : b.constants.LaidOut 1
  limit : b.constants.next < 65536
  texts : ∀ s i, b.texts[s]? = some i → b.constants.find? i.toNat = some (.utf8 s)
  classes : ∀ n i, b.classes[n]? = some i → b.constants.find? i.toNat = some (.className n)
  pairs : ∀ n d i, b.pairs[(n, d)]? = some i → b.constants.find? i.toNat = some (.nameAndType n d)

/-- Nothing is known at first, so all that is known is true. -/
theorem coherent_empty : empty.Coherent where
  laidOut := Slots.laidOut_startingAt 1
  limit := by decide
  texts := by simp [empty]
  classes := by simp [empty]
  pairs := by simp [empty]

/-- What is found is in front of what is to come. -/
theorem Coherent.lt_next {b : PoolBuilder} (hb : b.Coherent) {i : Nat} {c : Constant}
    (h : b.constants.find? i = some c) : i < b.constants.next := by
  by_contra hge
  rw [Slots.find?_eq_none_of_lt hb.laidOut (.inr (Nat.le_of_not_lt hge))] at h
  cases h

/-- Every constant stays in its slot, and the new ones are the given texts and what points at
them. -/
structure Grows (texts : List String) (b b' : PoolBuilder) : Prop where
  kept : ∀ i c, b.constants.find? i = some c → b'.constants.find? i = some c
  spells : ∀ s, b'.constants.Spells s ↔ b.constants.Spells s ∨ s ∈ texts
  sound : ∀ i c, b'.constants.find? i = some c →
    b.constants.find? i = some c ∨ c.Sound b'.constants

namespace Grows

variable {texts more : List String} {b b' b'' : PoolBuilder}

theorem refl (b : PoolBuilder) : Grows [] b b :=
  ⟨fun _ _ h => h, fun s => by simp, fun _ _ h => .inl h⟩

/-- The constants that are there stay. -/
theorem within (h : Grows texts b b') : b.constants.Within b'.constants :=
  fun i c _ hc => h.kept i c hc

theorem trans (h : Grows texts b b') (h' : Grows more b' b'') :
    Grows (texts ++ more) b b'' where
  kept i c hc := h'.kept i c (h.kept i c hc)
  spells s := by rw [h'.spells, h.spells, List.mem_append, or_assoc]
  sound i c hc := by
    rcases h'.sound i c hc with hold | hnew
    · rcases h.sound i c hold with hold | hnew
      · exact .inl hold
      · exact .inr (hnew.mono h'.within)
    · exact .inr hnew

end Grows

/-! ## Steps and their answers -/

/-- The step adds the texts and what points at them, and its answer has the property in every pool
that the built one is within. -/
def Writes {α : Type} (w : Build α) (texts : List String) (q : ConstantPool → α → Prop) : Prop :=
  ∀ b a b', w b = .ok (a, b') → b.Coherent →
    b'.Coherent ∧ Grows texts b b' ∧ ∀ p, b'.constants.Within p → q p a

/-- Behind a step that finds room, the next one goes on with what was built. -/
theorem of_bind_ok {α β : Type} {x : Build α} {f : α → Build β} {b b' : PoolBuilder} {c : β}
    (h : (x >>= f) b = .ok (c, b')) :
    ∃ a middle, x b = .ok (a, middle) ∧ f a middle = .ok (c, b') :=
  of_stateT_bind_eq_ok h

/-- What follows a step goes on from what it has built. -/
theorem bind_of_ok {α β : Type} {x : Build α} {f : α → Build β} {b b' : PoolBuilder} {a : α}
    (h : x b = .ok (a, b')) : (x >>= f) b = f a b' := by
  show (x b >>= fun next => f next.1 next.2) = _
  rw [h]
  rfl

/-- Nothing follows a step that has found no room. -/
theorem bind_of_error {α β : Type} {x : Build α} {f : α → Build β} {b : PoolBuilder} {o : Overflow}
    (h : x b = .error o) : (x >>= f) b = .error o := by
  show (x b >>= fun next => f next.1 next.2) = _
  rw [h]
  rfl

namespace Writes

variable {α β : Type} {texts more : List String} {q q' : ConstantPool → α → Prop}

theorem mono {w : Build α} (h : Writes w texts q) (hq : ∀ p a, q p a → q' p a) :
    Writes w texts q' := by
  intro b a b' hw hb
  obtain ⟨hb', hgrows, ha⟩ := h b a b' hw hb
  exact ⟨hb', hgrows, fun p hp => hq p a (ha p hp)⟩

theorem pure {a : α} (h : ∀ p, q p a) : Writes (Pure.pure a) [] q := by
  intro b a' b' hw hb
  cases hw
  exact ⟨hb, .refl b, fun p _ => h p⟩

/-- The second step may count on what the answer of the first one means. -/
theorem bind {x : Build α} {f : α → Build β} {r : ConstantPool → β → Prop} (hx : Writes x texts q)
    (hf : ∀ a, Writes (f a) m fun p c => q p a → r p c) : Writes (x >>= f) (texts ++ m) r := by
  intro b c b'' h hb
  obtain ⟨a, b', hfirst, hsecond⟩ := of_bind_ok h
  obtain ⟨hb', hgrows, ha⟩ := hx b a b' hfirst hb
  obtain ⟨hb'', hgrows', hc⟩ := hf a b' c b'' hsecond hb'
  exact ⟨hb'', hgrows.trans hgrows', fun p hp => hc p hp (ha p (hgrows'.within.trans hp))⟩

/-- What is done with an answer at the end adds nothing. -/
theorem map {x : Build α} {f : α → β} {r : ConstantPool → β → Prop} (hx : Writes x texts q)
    (hf : ∀ p a, q p a → r p (f a)) : Writes (x >>= fun a => Pure.pure (f a)) texts r := by
  have h := hx.bind (m := []) (r := r) fun a => Writes.pure fun p => hf p a
  rwa [List.append_nil] at h

/-- A step for every item adds the texts of all of them. -/
theorem mapM {l : List α} {f : α → Build β} {texts : α → List String}
    {r : α → ConstantPool → β → Prop} (h : ∀ a ∈ l, Writes (f a) (texts a) (r a)) :
    Writes (l.mapM f) (l.flatMap texts) fun p bs => List.Forall₂ (fun a b => r a p b) l bs := by
  induction l with
  | nil => exact Writes.pure fun _ => .nil
  | cons a l ih =>
    rw [List.mapM_cons, List.flatMap_cons]
    refine (h a List.mem_cons_self).bind fun b => ?_
    refine (ih fun a ha => h a (List.mem_cons_of_mem _ ha)).map fun p bs hbs hb => ?_
    exact .cons hb hbs

end Writes

/-! ## Adding at the end -/

/-- A constant that is added is found in the slot that is answered. -/
theorem of_push_eq_ok {b b' : PoolBuilder} {c : Constant} {i : Index} (h : push c b = .ok (i, b')) :
    i.toNat = b.constants.next ∧ b' = { b with constants := b.constants.push c } ∧
      b'.constants.next < 65536 := by
  simp only [push] at h
  split at h
  · next hroom =>
    cases h
    rw [slotLimit] at hroom
    refine ⟨UInt16.toNat_ofNat_of_lt' ?_, rfl, ?_⟩
    · show b.constants.next < 65536
      omega
    · show b.constants.next + c.width < 65536
      omega
  · cases h

/-- What is in the pool stays there when a constant is added. -/
theorem kept_push {b : PoolBuilder} (hb : b.Coherent) (c : Constant) {i : Nat} {d : Constant}
    (h : b.constants.find? i = some d) : (b.constants.push c).find? i = some d := by
  rw [Slots.find?_push hb.laidOut, if_neg (Nat.ne_of_lt (hb.lt_next h)), h]

/-- Adding a constant keeps the tables true. -/
theorem Coherent.push {b b' : PoolBuilder} {c : Constant} {i : Index} (hb : b.Coherent)
    (h : push c b = .ok (i, b')) : b'.Coherent := by
  obtain ⟨-, rfl, hlimit⟩ := of_push_eq_ok h
  exact
    { laidOut := hb.laidOut.push c
      limit := hlimit
      texts := fun s i hi => kept_push hb c (hb.texts s i hi)
      classes := fun n i hi => kept_push hb c (hb.classes n i hi)
      pairs := fun n d i hi => kept_push hb c (hb.pairs n d i hi) }

/-- A constant that resolves may be added; only a text adds a text. -/
theorem grows_push {b b' : PoolBuilder} {c : Constant} {i : Index} {l : List String}
    (hb : b.Coherent) (h : push c b = .ok (i, b')) (hsound : c.Sound b'.constants)
    (htexts : ∀ s, s ∈ l ↔ c = .utf8 s) :
    Grows l b b' ∧ b'.constants.find? i.toNat = some c := by
  obtain ⟨hi, rfl, -⟩ := of_push_eq_ok h
  have hfind := Slots.find?_push hb.laidOut c
  refine ⟨⟨fun i d hd => kept_push hb c hd, fun s => ?_, fun i d hd => ?_⟩, ?_⟩
  · rw [htexts]
    constructor
    · rintro ⟨j, hj⟩
      rw [hfind] at hj
      split at hj
      · exact .inr (Option.some.inj hj)
      · exact .inl ⟨j, hj⟩
    · rintro (⟨j, hj⟩ | rfl)
      · exact ⟨j, kept_push hb c hj⟩
      · exact ⟨b.constants.next, by rw [hfind, if_pos rfl]⟩
  · rw [hfind] at hd
    split at hd
    · cases hd
      exact .inr hsound
    · exact .inl hd
  · rw [hfind, if_pos hi]

/-! ## Sharing -/

section Tables

variable {κ : Type} [BEq κ] [LawfulBEq κ] [Hashable κ] [LawfulHashable κ]
  {table : Std.HashMap κ Index} {key other : κ} {slot i : Index}

/-- What a table answers after an insertion, it has answered before or been told. -/
theorem of_getElem?_insert (h : (table.insert key slot)[other]? = some i) :
    table[other]? = some i ∨ other = key ∧ i = slot := by
  rw [Std.HashMap.getElem?_insert] at h
  split at h
  · next hkey =>
    cases h
    exact .inr ⟨(eq_of_beq hkey).symm, rfl⟩
  · exact .inl h

/-- What a table answers after an insertion, it has answered before or been told. -/
theorem of_getElem?_insertIfNew (h : (table.insertIfNew key slot)[other]? = some i) :
    table[other]? = some i ∨ other = key ∧ i = slot := by
  rw [Std.HashMap.getElem?_insertIfNew] at h
  split at h
  · next hkey =>
    cases h
    exact .inr ⟨(eq_of_beq hkey.1).symm, rfl⟩
  · exact .inl h

end Tables

namespace Coherent

variable {b : PoolBuilder} {slot : Index}

/-- A text may be added to its table with a slot that holds it. -/
theorem withTexts {s : String} (hb : b.Coherent)
    (hfind : b.constants.find? slot.toNat = some (.utf8 s)) {table : Std.HashMap String Index}
    (h : ∀ t i, table[t]? = some i → b.texts[t]? = some i ∨ t = s ∧ i = slot) :
    Coherent { b with texts := table } where
  laidOut := hb.laidOut
  limit := hb.limit
  texts t i hi := by
    rcases h t i hi with hold | ⟨rfl, rfl⟩
    · exact hb.texts t i hold
    · exact hfind
  classes := hb.classes
  pairs := hb.pairs

/-- A class may be added to its table with a slot that holds it. -/
theorem withClasses {n : Index} (hb : b.Coherent)
    (hfind : b.constants.find? slot.toNat = some (.className n)) {table : Std.HashMap Index Index}
    (h : ∀ m i, table[m]? = some i → b.classes[m]? = some i ∨ m = n ∧ i = slot) :
    Coherent { b with classes := table } where
  laidOut := hb.laidOut
  limit := hb.limit
  texts := hb.texts
  classes m i hi := by
    rcases h m i hi with hold | ⟨rfl, rfl⟩
    · exact hb.classes m i hold
    · exact hfind
  pairs := hb.pairs

/-- A pair may be added to its table with a slot that holds it. -/
theorem withPairs {n d : Index} (hb : b.Coherent)
    (hfind : b.constants.find? slot.toNat = some (.nameAndType n d))
    {table : Std.HashMap (Index × Index) Index}
    (h : ∀ m i, table[m]? = some i → b.pairs[m]? = some i ∨ m = (n, d) ∧ i = slot) :
    Coherent { b with pairs := table } where
  laidOut := hb.laidOut
  limit := hb.limit
  texts := hb.texts
  classes := hb.classes
  pairs m e i hi := by
    rcases h (m, e) i hi with hold | ⟨hkey, rfl⟩
    · exact hb.pairs m e i hold
    · cases hkey
      exact hfind

end Coherent

/-- The slot of a constant that a table has, or else a new one, which the table is told. -/
def shared (find? : PoolBuilder → Option Index) (insert : PoolBuilder → Index → PoolBuilder)
    (c : Constant) : Build Index := fun b =>
  match find? b with
  | some slot => .ok (slot, b)
  | none => do
    let (slot, b) ← push c b
    pure (slot, insert b slot)

/-- A text is shared by its letters. -/
theorem text_eq_shared (s : String) :
    text s = shared (·.texts[s]?) (fun b slot => { b with texts := b.texts.insert s slot })
      (.utf8 s) := rfl

/-- A class is shared by the slot of its name. -/
theorem classAt_eq_shared (name : Index) :
    classAt name = shared (·.classes[name]?)
      (fun b slot => { b with classes := b.classes.insert name slot }) (.className name) := rfl

/-- A pair is shared by the slots of its two texts. -/
theorem pairAt_eq_shared (name descriptor : Index) :
    pairAt name descriptor = shared (·.pairs[(name, descriptor)]?)
      (fun b slot => { b with pairs := b.pairs.insert (name, descriptor) slot })
      (.nameAndType name descriptor) := rfl

/-- A shared constant gets a slot that holds it. -/
theorem of_shared_eq_ok {b b' : PoolBuilder} {c : Constant} {i : Index}
    {find? : PoolBuilder → Option Index} {insert : PoolBuilder → Index → PoolBuilder}
    {l : List String} (hb : b.Coherent) (h : shared find? insert c b = .ok (i, b'))
    (hfound : ∀ slot, find? b = some slot → b.constants.find? slot.toNat = some c)
    (hinsert : ∀ b slot, (insert b slot).constants = b.constants ∧
      (b.Coherent → b.constants.find? slot.toNat = some c → (insert b slot).Coherent))
    (hsound : ∀ p : ConstantPool, b.constants.Within p → c.Sound p)
    (htexts : ∀ s, s ∈ l ↔ c = .utf8 s) :
    b'.Coherent ∧ Grows l b b' ∧ b'.constants.find? i.toNat = some c := by
  unfold shared at h
  split at h
  · next slot hslot =>
    cases h
    have hfind := hfound _ hslot
    refine ⟨hb, ⟨fun _ _ h => h, fun s => ?_, fun _ _ h => .inl h⟩, hfind⟩
    rw [htexts]
    constructor
    · exact .inl
    · rintro (h | rfl)
      · exact h
      · exact ⟨_, hfind⟩
  · obtain ⟨⟨slot, pushed⟩, hpush, h⟩ := bind_eq_ok_iff.1 h
    cases h
    obtain ⟨hconstants, hcoherent⟩ := hinsert pushed i
    have hwithin : b.constants.Within pushed.constants := by
      obtain ⟨-, rfl, -⟩ := of_push_eq_ok hpush
      exact fun j d _ hd => kept_push hb c hd
    obtain ⟨hgrows, hfind⟩ := grows_push (l := l) hb hpush (hsound _ hwithin) htexts
    refine ⟨hcoherent (hb.push hpush) hfind, ?_, by rw [hconstants]; exact hfind⟩
    exact ⟨by rw [hconstants]; exact hgrows.kept, by rw [hconstants]; exact hgrows.spells,
      by rw [hconstants]; exact hgrows.sound⟩

/-- A text gets a slot that holds it. -/
theorem writes_text (s : String) : Writes (text s) [s] fun p i => p.utf8 i = .ok s := by
  intro b i b' h hb
  rw [text_eq_shared] at h
  obtain ⟨hb', hgrows, hfind⟩ := of_shared_eq_ok (l := [s]) hb h (hb.texts s)
    (fun b slot => ⟨rfl, fun hb hfind => hb.withTexts hfind fun _ _ => of_getElem?_insert⟩)
    (fun p _ => ⟨⟨.utf8 s, rfl⟩, trivial, by simp⟩) (fun t => by simp [eq_comm])
  exact ⟨hb', hgrows, fun p hp => hp.utf8 (ConstantPool.utf8_eq_ok_iff.2 hfind)⟩

/-- A class gets a slot that leads to its name, and which is not the one that stands for none. -/
theorem writes_className (s : String) :
    Writes (className s) [s] fun p i => i ≠ 0 ∧ p.className i = .ok s := by
  intro b i b'' h hb
  obtain ⟨n, b', htext, h⟩ := of_bind_ok h
  obtain ⟨hb', hgrows, hn⟩ := writes_text s b n b' htext hb
  have hname := hn b'.constants (.refl _)
  rw [classAt_eq_shared] at h
  obtain ⟨hb'', hgrows', hfind⟩ := of_shared_eq_ok (l := []) hb' h (hb'.classes n)
    (fun b slot => ⟨rfl, fun hb hfind => hb.withClasses hfind fun _ _ => of_getElem?_insert⟩)
    (fun p hp => ⟨⟨.className s, map_eq_ok_iff.2 ⟨s, hp.utf8 hname, rfl⟩⟩, trivial, by simp⟩)
    (fun t => by simp)
  refine ⟨hb'', hgrows.trans hgrows', fun p hp => ⟨?_, ?_⟩⟩
  · rintro rfl
    rw [Slots.find?_eq_none_of_lt hb''.laidOut (.inl (by decide))] at hfind
    cases hfind
  · rw [ConstantPool.className_eq_ok_iff]
    exact ⟨n, hp _ _ (by simp) hfind,
      ConstantPool.utf8_eq_ok_iff.1 (hn p (hgrows'.within.trans hp))⟩

/-- A name and a descriptor get a slot that leads to them. -/
theorem writes_pair (name descriptor : String) :
    Writes (pair name descriptor) [name, descriptor] fun p i =>
      p.nameAndType i = .ok (name, descriptor) := by
  have hparts : Writes (do pure (← text name, ← text descriptor)) [name, descriptor]
      fun p i => p.utf8 i.1 = .ok name ∧ p.utf8 i.2 = .ok descriptor :=
    (writes_text name).bind fun n => (writes_text descriptor).map fun p d hd hn => ⟨hn, hd⟩
  intro b i b'' h hb
  have hsplit : pair name descriptor = (do pure (← text name, ← text descriptor)) >>=
      fun i => pairAt i.1 i.2 := by
    simp [pair]
  rw [hsplit] at h
  obtain ⟨⟨n, d⟩, b', htexts, h⟩ := of_bind_ok h
  obtain ⟨hb', hgrows, hn⟩ := hparts b (n, d) b' htexts hb
  obtain ⟨hname, hdescriptor⟩ := hn b'.constants (.refl _)
  rw [pairAt_eq_shared] at h
  obtain ⟨hb'', hgrows', hfind⟩ := of_shared_eq_ok (l := []) hb' h (hb'.pairs n d)
    (fun b slot => ⟨rfl, fun hb hfind => hb.withPairs hfind fun _ _ => of_getElem?_insert⟩)
    (fun p hp => ⟨⟨.nameAndType name descriptor, bind_eq_ok_iff.2
      ⟨name, hp.utf8 hname, map_eq_ok_iff.2 ⟨descriptor, hp.utf8 hdescriptor, rfl⟩⟩⟩, trivial,
      by simp⟩)
    (fun t => by simp)
  refine ⟨hb'', hgrows.trans hgrows', fun p hp => ?_⟩
  obtain ⟨hname, hdescriptor⟩ := hn p (hgrows'.within.trans hp)
  rw [ConstantPool.nameAndType_eq_ok_iff]
  exact ⟨n, d, hp _ _ (by simp) hfind, ConstantPool.utf8_eq_ok_iff.1 hname,
    ConstantPool.utf8_eq_ok_iff.1 hdescriptor⟩

end PoolBuilder

end Crosswalk
