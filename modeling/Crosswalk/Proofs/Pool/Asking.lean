import Crosswalk.Proofs.Pool.Seeding

/-!
# What a pool is asked for

A writer never looks into the pool. It asks for the slots of texts, classes and pairs, and goes on
with what it is answered; `Asks` lists what it asks for. Two things follow without another look at
any writer: it does the same again in every pool that answers as much as the one it has left
(`Asks.replays`), and it leaves a pool alone that has all it asks for (`Asks.rests`).
-/

namespace Crosswalk

/-- A constant that is looked up in a table before it is added. -/
def Constant.IsShared : Constant → Prop
  | .utf8 _ | .className _ | .nameAndType _ _ => True
  | _ => False

namespace PoolBuilder

variable {α β : Type} {b b' b'' : PoolBuilder}

/-! ## Three tables as one -/

/-- The slot that the tables have for a constant. -/
def slot? (b : PoolBuilder) : Constant → Option Index
  | .utf8 s => b.texts[s]?
  | .className name => b.classes[name]?
  | .nameAndType name descriptor => b.pairs[(name, descriptor)]?
  | _ => none

/-- Tells the tables the slot of a constant. -/
def enter (b : PoolBuilder) (slot : Index) : Constant → PoolBuilder
  | .utf8 s => { b with texts := b.texts.insert s slot }
  | .className name => { b with classes := b.classes.insert name slot }
  | .nameAndType name descriptor => { b with pairs := b.pairs.insert (name, descriptor) slot }
  | _ => b

/-- The slot of a shared constant, which is added if the tables have none. -/
def intern (c : Constant) : Build Index :=
  shared (·.slot? c) (·.enter · c) c

theorem text_eq_intern (s : String) : text s = intern (.utf8 s) := rfl

theorem classAt_eq_intern (name : Index) : classAt name = intern (.className name) := rfl

theorem pairAt_eq_intern (name descriptor : Index) :
    pairAt name descriptor = intern (.nameAndType name descriptor) := rfl

/-- What is entered is found in its slot, and everything else where it was. -/
theorem slot?_enter {c : Constant} (hc : c.IsShared) (slot : Index) (d : Constant) :
    (b.enter slot c).slot? d = if d = c then some slot else b.slot? d := by
  by_cases h : d = c
  · subst h
    cases d <;> first | exact hc.elim | simp [enter, slot?]
  · rw [if_neg h]
    -- Another table is left alone, and in the same one the key is another.
    cases c <;> cases d <;> first
      | exact hc.elim
      | rfl
      | exact Std.HashMap.getElem?_insert.trans
          (if_neg fun hkey => h (by cases eq_of_beq hkey; rfl))

/-- No constant is added by it. -/
theorem constants_enter (slot : Index) (c : Constant) :
    (b.enter slot c).constants = b.constants := by
  cases c <;> rfl

/-- Only shared constants are in the tables. -/
theorem isShared_of_slot? {c : Constant} {i : Index} (h : b.slot? c = some i) : c.IsShared := by
  cases c <;> first | exact True.intro | cases h

/-- What a builder knows is in its slot. -/
theorem Coherent.find?_of_slot? (hb : b.Coherent) {c : Constant} {i : Index}
    (h : b.slot? c = some i) : b.constants.find? i.toNat = some c := by
  cases c with
  | utf8 s => exact hb.texts s i h
  | className name => exact hb.classes name i h
  | nameAndType name descriptor => exact hb.pairs name descriptor i h
  | _ => cases h

/-- A builder may enter what is in its slot. -/
theorem Coherent.enter (hb : b.Coherent) {slot : Index} {c : Constant}
    (h : b.constants.find? slot.toNat = some c) : (b.enter slot c).Coherent := by
  cases c with
  | utf8 s => exact hb.withTexts h fun _ _ => of_getElem?_insert
  | className name => exact hb.withClasses h fun _ _ => of_getElem?_insert
  | nameAndType name descriptor => exact hb.withPairs h fun _ _ => of_getElem?_insert
  | _ => exact hb

/-- Either the tables have the constant, or it is added at the end and entered. -/
theorem of_intern_eq_ok {c : Constant} {i : Index} (h : intern c b = .ok (i, b')) :
    b.slot? c = some i ∧ b' = b ∨
      b.slot? c = none ∧ ∃ pushed, push c b = .ok (i, pushed) ∧ b' = pushed.enter i c := by
  unfold intern shared at h
  split at h
  · next slot hslot =>
    cases h
    exact .inl ⟨hslot, rfl⟩
  · next hnone =>
    obtain ⟨⟨slot, pushed⟩, hpush, h⟩ := bind_eq_ok_iff.1 h
    cases h
    exact .inr ⟨hnone, pushed, hpush, rfl⟩

/-- A constant that the tables have is not added again. -/
theorem intern_of_slot? {c : Constant} {i : Index} (h : b.slot? c = some i) :
    intern c b = .ok (i, b) := by
  simp [intern, shared, h]

/-- What is added changes no table. -/
theorem slot?_of_push_eq_ok {c : Constant} {i : Index} (h : push c b = .ok (i, b'))
    (d : Constant) : b'.slot? d = b.slot? d := by
  simp only [push] at h
  split at h
  · cases h
    cases d <;> rfl
  · cases h

/-! ## Doing the same again -/

/-- Whatever the tables of one builder have, those of the other have in the same slot. -/
def Agrees (b b' : PoolBuilder) : Prop :=
  ∀ c i, b.slot? c = some i → b'.slot? c = some i

theorem Agrees.refl (b : PoolBuilder) : b.Agrees b :=
  fun _ _ h => h

theorem Agrees.trans (h : b.Agrees b') (h' : b'.Agrees b'') : b.Agrees b'' :=
  fun c i hi => h' c i (h c i hi)

/-- The step only adds to the tables, and does the same again wherever the tables have as much as
those it has left. -/
def Replays (w : Build α) : Prop :=
  ∀ b a b', w b = .ok (a, b') →
    b.Agrees b' ∧ ∀ b'', b'.Agrees b'' → w b'' = .ok (a, b'')

namespace Replays

theorem pure (a : α) : Replays (Pure.pure a) := by
  intro b a' b' h
  cases h
  exact ⟨.refl b, fun b'' _ => rfl⟩

theorem bind {x : Build α} {f : α → Build β} (hx : Replays x) (hf : ∀ a, Replays (f a)) :
    Replays (x >>= f) := by
  intro b c b' h
  obtain ⟨a, middle, hfirst, hsecond⟩ := of_bind_ok h
  obtain ⟨hagrees, hagain⟩ := hx b a middle hfirst
  obtain ⟨hagrees', hagain'⟩ := hf a middle c b' hsecond
  refine ⟨hagrees.trans hagrees', fun b'' hb'' => ?_⟩
  rw [bind_of_ok (hagain b'' (hagrees'.trans hb''))]
  exact hagain' b'' hb''

/-- Once a constant has a slot, asking for it answers that slot. -/
theorem intern {c : Constant} (hc : c.IsShared) : Replays (intern c) := by
  intro b i b' h
  rcases of_intern_eq_ok h with ⟨hslot, rfl⟩ | ⟨hnone, pushed, hpush, rfl⟩
  · exact ⟨.refl _, fun b'' hb'' => intern_of_slot? (hb'' c i hslot)⟩
  · refine ⟨fun d j hj => ?_, fun b'' hb'' => intern_of_slot? (hb'' c i ?_)⟩
    · have hne : d ≠ c := by
        rintro rfl
        rw [hnone] at hj
        cases hj
      rw [slot?_enter hc, if_neg hne, slot?_of_push_eq_ok hpush, hj]
    · rw [slot?_enter hc, if_pos rfl]

end Replays

/-! ## Asking -/

/-- What a writer can ask a pool for. -/
inductive Need
  | text (s : String)
  | className (name : String)
  | pair (name descriptor : String)
  deriving DecidableEq

namespace Need

/-- Asks for the slot. -/
def ask : Need → Build Index
  | text s => PoolBuilder.text s
  | className name => PoolBuilder.className name
  | pair name descriptor => PoolBuilder.pair name descriptor

/-- The entry that answers. -/
def entry : Need → Entry
  | text s => .utf8 s
  | className name => .className name
  | pair name descriptor => .nameAndType name descriptor

/-- What has been asked for is found again. -/
theorem replays_ask (n : Need) : Replays n.ask := by
  cases n with
  | text s =>
    rw [ask, text_eq_intern]
    exact .intern trivial
  | className name =>
    rw [ask, PoolBuilder.className, text_eq_intern]
    refine .bind (.intern trivial) fun i => ?_
    rw [classAt_eq_intern]
    exact .intern trivial
  | pair name descriptor =>
    rw [ask, PoolBuilder.pair, text_eq_intern]
    refine .bind (.intern trivial) fun i => ?_
    rw [text_eq_intern]
    refine .bind (.intern trivial) fun j => ?_
    rw [pairAt_eq_intern]
    exact .intern trivial

/-- Asking adds the texts of the entry and what points at them. -/
theorem writes_ask (n : Need) : Writes n.ask n.entry.texts fun _ _ => True := by
  cases n with
  | text s => exact (writes_text s).mono fun _ _ _ => trivial
  | className name => exact (writes_className name).mono fun _ _ _ => trivial
  | pair name descriptor => exact (writes_pair name descriptor).mono fun _ _ _ => trivial

end Need

/-- The pool need not grow to answer. -/
def Knows (b : PoolBuilder) (n : Need) : Prop :=
  ∃ i, n.ask b = .ok (i, b)

theorem Knows.mono {n : Need} (h : b.Knows n) (hagrees : b.Agrees b') : b'.Knows n := by
  obtain ⟨i, hi⟩ := h
  exact ⟨i, (n.replays_ask b i b hi).2 b' hagrees⟩

/-- The writer asks for these things and looks at nothing else. -/
inductive Asks : {α : Type} → Build α → List Need → Prop
  | pure {α : Type} (a : α) : Asks (Pure.pure a) []
  | ask (n : Need) : Asks n.ask [n]
  | bind {α β : Type} {x : Build α} {f : α → Build β} {needs more : List Need} :
    Asks x needs → (∀ a, Asks (f a) more) → Asks (x >>= f) (needs ++ more)

namespace Asks

variable {needs : List Need} {w : Build α}

/-- What is done with an answer at the end asks for nothing. -/
theorem map {f : α → β} (h : Asks w needs) : Asks (w >>= fun a => Pure.pure (f a)) needs := by
  have hbind := h.bind fun a => Asks.pure (f a)
  rwa [List.append_nil] at hbind

/-- A step for every item asks for what each of them needs. -/
theorem mapM {l : List α} {f : α → Build β} {needs : α → List Need}
    (h : ∀ a ∈ l, Asks (f a) (needs a)) : Asks (l.mapM f) (l.flatMap needs) := by
  induction l with
  | nil => exact .pure []
  | cons a l ih =>
    rw [List.mapM_cons, List.flatMap_cons]
    refine (h a List.mem_cons_self).bind fun b => ?_
    exact (ih fun a ha => h a (List.mem_cons_of_mem _ ha)).map

/-- Whatever only asks can be asked again. -/
theorem replays (h : Asks w needs) : Replays w := by
  induction h with
  | pure a => exact .pure a
  | ask n => exact n.replays_ask
  | bind _ _ hx hf => exact hx.bind hf

/-- The pool gets the texts of what is asked for. -/
theorem writes (h : Asks w needs) :
    Writes w (needs.flatMap fun n => n.entry.texts) fun _ _ => True := by
  induction h with
  | pure a => exact Writes.pure fun _ => trivial
  | ask n =>
    rw [List.flatMap_singleton]
    exact n.writes_ask
  | bind _ _ hx hf =>
    rw [List.flatMap_append]
    exact hx.bind fun a => (hf a).mono fun _ _ _ _ => trivial

/-- Nothing is added where everything is known. -/
theorem rests (h : Asks w needs) (hb : ∀ n ∈ needs, b.Knows n) : ∃ a, w b = .ok (a, b) := by
  induction h with
  | pure a => exact ⟨a, rfl⟩
  | ask n => exact hb n List.mem_cons_self
  | bind _ _ hx hf =>
    obtain ⟨a, ha⟩ := hx fun n hn => hb n (List.mem_append_left _ hn)
    obtain ⟨c, hc⟩ := hf a fun n hn => hb n (List.mem_append_right _ hn)
    exact ⟨c, (bind_of_ok ha).trans hc⟩

end Asks

theorem asks_text (s : String) : Asks (text s) [.text s] := .ask (.text s)

theorem asks_className (name : String) : Asks (className name) [.className name] :=
  .ask (.className name)

theorem asks_pair (name descriptor : String) :
    Asks (pair name descriptor) [.pair name descriptor] :=
  .ask (.pair name descriptor)

end PoolBuilder

/-! ## What an entry needs -/

open PoolBuilder (Need)

/-- What is asked for to point at a member. -/
def MemberRef.needs (m : MemberRef) : List Need :=
  [.className m.owner, .pair m.name m.descriptor]

/-- What is asked for when an entry gets its constant. -/
def Entry.needs : Entry → List Need
  | utf8 _ | rawUtf8 _ | integer _ | float _ | long _ | double _ => []
  | rawString _ | methodHandle _ _ => []
  | className name => [.text name]
  | string text => [.text text]
  | fieldRef member => member.needs
  | methodRef member _ => member.needs
  | nameAndType name descriptor => [.text name, .text descriptor]
  | methodType descriptor => [.text descriptor]
  | dynamic _ name descriptor => [.pair name descriptor]
  | invokeDynamic _ name descriptor => [.pair name descriptor]
  | moduleName name => [.text name]
  | packageName name => [.text name]

namespace PoolBuilder

/-- Spelling an entry asks for what the entry needs. -/
theorem asks_spell (e : Entry) : Asks (spell e) e.needs := by
  cases e with
  | utf8 _ | rawUtf8 _ | integer _ | float _ | long _ | double _ => exact .pure _
  | rawString _ | methodHandle _ _ => exact .pure _
  | className name => exact (asks_text name).map
  | string s => exact (asks_text s).map
  | fieldRef m => exact (asks_className m.owner).bind fun _ => (asks_pair _ _).map
  | methodRef m _ => exact (asks_className m.owner).bind fun _ => (asks_pair _ _).map
  | nameAndType name descriptor => exact (asks_text name).bind fun _ => (asks_text _).map
  | methodType descriptor => exact (asks_text descriptor).map
  | dynamic _ name descriptor => exact (asks_pair name descriptor).map
  | invokeDynamic _ name descriptor => exact (asks_pair name descriptor).map
  | moduleName name => exact (asks_text name).map
  | packageName name => exact (asks_text name).map

/-- An entry that points at nothing needs nothing but its own slot. -/
theorem spell_of_not_points {e : Entry} (h : ¬ e.points) : spell e = pure (holding e) := by
  cases e <;> first
    | rfl
    | exact absurd (by simp [Entry.points, Entry.isShared, Entry.isPointing]) h

end PoolBuilder

end Crosswalk
