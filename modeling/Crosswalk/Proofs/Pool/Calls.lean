import Crosswalk.Proofs.Pool.Full
import Crosswalk.Proofs.Pool.Reseeding
import Crosswalk.Proofs.Pool.Room

/-!
# Calls to a pool

A pool that has been seeded is called for texts, classes and pairs in any order. A call adds one
constant after the other, and when one of them finds no room, those before it stay (`Need.leave`).
Whatever calls leave could also have been left by a writer that finds room (`reaches_after`), so
what holds of writers holds of them. Besides, every constant behind the entries is the one that the
tables have (`Entered`), which is why none of them is there twice.
-/

namespace Crosswalk.PoolBuilder

variable {α : Type} {b b' b'' : PoolBuilder} {stop : Nat} {entries : EntryPool}

/-! ## What calls leave -/

/-- What is left behind a step that adds one constant. Nothing goes on where it finds no room. -/
def through (w : Build α) (next : α → PoolBuilder → PoolBuilder) (b : PoolBuilder) : PoolBuilder :=
  match w b with
  | .ok (a, b') => next a b'
  | .error _ => b

/-- What a call leaves, whether or not there is room for all it adds. -/
def Need.leave : Need → PoolBuilder → PoolBuilder
  | text s => through (PoolBuilder.text s) fun _ b => b
  | className name =>
    through (PoolBuilder.text name) fun i => through (classAt i) fun _ b => b
  | pair name descriptor =>
    through (PoolBuilder.text name) fun i => through (PoolBuilder.text descriptor) fun j =>
      through (pairAt i j) fun _ b => b

/-- What calls leave that come one after the other. -/
def after (b : PoolBuilder) (calls : List Need) : PoolBuilder :=
  calls.foldl (fun b n => n.leave b) b

/-- Calls may be made in two parts. -/
theorem after_append (b : PoolBuilder) (calls later : List Need) :
    b.after (calls ++ later) = (b.after calls).after later :=
  List.foldl_append

/-- A call that has found room leaves what it has built. -/
theorem through_of_ok {w : Build α} {next : α → PoolBuilder → PoolBuilder} {a : α}
    (h : w b = .ok (a, b')) : through w next b = next a b' := by
  rw [through, h]

/-- A call that has found none leaves everything as it was. -/
theorem through_of_error {w : Build α} {next : α → PoolBuilder → PoolBuilder} {o : Overflow}
    (h : w b = .error o) : through w next b = b := by
  rw [through, h]

/-- There is no other way for a call to end. -/
theorem through_cases (w : Build α) (next : α → PoolBuilder → PoolBuilder) (b : PoolBuilder) :
    through w next b = b ∨ ∃ a b', w b = .ok (a, b') ∧ through w next b = next a b' := by
  cases h : w b with
  | error o => exact .inl (through_of_error h)
  | ok made => exact .inr ⟨made.1, made.2, rfl, through_of_ok h⟩

/-- A call that is answered leaves what it has built. -/
theorem Need.leave_of_ask {n : Need} {i : Index} (h : n.ask b = .ok (i, b')) : n.leave b = b' := by
  cases n with
  | text s => exact through_of_ok h
  | className name =>
    obtain ⟨j, middle, hname, hclass⟩ := of_bind_ok h
    exact (through_of_ok hname).trans (through_of_ok hclass)
  | pair name descriptor =>
    obtain ⟨j, first, hname, h⟩ := of_bind_ok h
    obtain ⟨k, second, hdescriptor, hpair⟩ := of_bind_ok h
    exact (through_of_ok hname).trans ((through_of_ok hdescriptor).trans (through_of_ok hpair))

/-- Some writer makes the second builder of the first one. -/
def Reaches (b b' : PoolBuilder) : Prop :=
  ∃ (needs : List Need) (w : Build Unit), Asks w needs ∧ w b = .ok ((), b')

namespace Reaches

theorem refl (b : PoolBuilder) : Reaches b b :=
  ⟨[], Pure.pure (), .pure (), rfl⟩

theorem trans (h : Reaches b b') (h' : Reaches b' b'') : Reaches b b'' := by
  obtain ⟨needs, w, hw, hrun⟩ := h
  obtain ⟨more, w', hw', hrun'⟩ := h'
  exact ⟨needs ++ more, w >>= fun _ => w', hw.bind fun _ => hw', (bind_of_ok hrun).trans hrun'⟩

/-- A call leads on. -/
theorem of_ask {n : Need} {i : Index} (h : n.ask b = .ok (i, b')) : Reaches b b' :=
  ⟨[n], n.ask >>= fun _ => Pure.pure (), (Asks.ask n).map, bind_of_ok h⟩

end Reaches

/-- A call that fails leaves what a shorter one does that is answered. -/
theorem Need.reaches_leave (n : Need) (b : PoolBuilder) : Reaches b (n.leave b) := by
  cases n with
  | text s =>
    rcases through_cases (PoolBuilder.text s) (fun _ b => b) b with hleave | ⟨i, b', htext, hleave⟩
    · rw [leave, hleave]
      exact .refl b
    · rw [leave, hleave]
      exact .of_ask (n := .text s) htext
  | className name =>
    rcases through_cases (PoolBuilder.text name) (fun i => through (classAt i) fun _ b => b) b
      with hleave | ⟨i, b', hname, hleave⟩ <;> rw [leave, hleave]
    · exact .refl b
    rcases through_cases (classAt i) (fun _ b => b) b' with hleave | ⟨j, b'', hclass, hleave⟩ <;>
      rw [hleave]
    · exact .of_ask (n := .text name) hname
    · exact .of_ask (n := .className name) ((bind_of_ok hname).trans hclass)
  | pair name descriptor =>
    rcases through_cases (PoolBuilder.text name) (fun i => through (PoolBuilder.text descriptor)
      fun j => through (pairAt i j) fun _ b => b) b
      with hleave | ⟨i, first, hname, hleave⟩ <;> rw [leave, hleave]
    · exact .refl b
    rcases through_cases (PoolBuilder.text descriptor) (fun j => through (pairAt i j) fun _ b => b)
      first with hleave | ⟨j, second, hdescriptor, hleave⟩ <;> rw [hleave]
    · exact .of_ask (n := .text name) hname
    rcases through_cases (pairAt i j)
      (fun _ b => b) second with hleave | ⟨k, last, hpair, hleave⟩ <;>
      rw [hleave]
    · exact .trans (.of_ask (n := .text name) hname) (.of_ask (n := .text descriptor) hdescriptor)
    · exact .of_ask (n := .pair name descriptor)
        ((bind_of_ok hname).trans ((bind_of_ok hdescriptor).trans hpair))

/-- Whatever calls leave, a writer that finds room leaves too. -/
theorem reaches_after (b : PoolBuilder) (calls : List Need) : Reaches b (b.after calls) := by
  induction calls generalizing b with
  | nil => exact .refl b
  | cons n calls ih => exact (n.reaches_leave b).trans (ih (n.leave b))

/-! ## What is behind the entries -/

/-- Every constant from the slot on is the one that the tables have. -/
structure Entered (stop : Nat) (b : PoolBuilder) : Prop where
  rising : b.constants.Rising
  slot? : ∀ i c, stop ≤ i → b.constants.find? i = some c →
    ∃ slot, b.slot? c = some slot ∧ slot.toNat = i

namespace Entered

/-- A constant that is added is told to the tables. -/
theorem intern (h : Entered stop b) {c : Constant} {i : Index} (hc : c.IsShared)
    (hintern : intern c b = .ok (i, b')) : Entered stop b' := by
  obtain ⟨hagrees, -⟩ := Replays.intern hc b i b' hintern
  rcases of_intern_eq_ok hintern with ⟨-, rfl⟩ | ⟨-, pushed, hpush, rfl⟩
  · exact h
  obtain ⟨hslot, hpushed, -⟩ := of_push_eq_ok hpush
  have hconstants : (pushed.enter i c).constants = b.constants.push c := by
    rw [constants_enter, hpushed]
  refine ⟨hconstants ▸ h.rising.push (LawfulWide.width_pos c), fun j d hj hd => ?_⟩
  rw [hconstants, h.rising.find?_push (LawfulWide.width_pos c)] at hd
  split at hd
  · next hnext =>
    cases hd
    exact ⟨i, by rw [slot?_enter hc, if_pos rfl], hslot.trans hnext.symm⟩
  · obtain ⟨slot, hd, hslot⟩ := h.slot? j d hj hd
    exact ⟨slot, hagrees d slot hd, hslot⟩

/-- A call enters what it has added. -/
theorem ask (h : Entered stop b) {n : Need} {i : Index} (hask : n.ask b = .ok (i, b')) :
    Entered stop b' := by
  cases n with
  | text s => exact h.intern (c := .utf8 s) trivial hask
  | className name =>
    obtain ⟨j, middle, hname, hclass⟩ := of_bind_ok hask
    exact (h.intern (c := .utf8 name) trivial hname).intern (c := .className j) trivial hclass
  | pair name descriptor =>
    obtain ⟨j, first, hname, hrest⟩ := of_bind_ok hask
    obtain ⟨k, second, hdescriptor, hpair⟩ := of_bind_ok hrest
    have hsecond := (h.intern (c := .utf8 name) trivial hname).intern (c := .utf8 descriptor)
      trivial hdescriptor
    exact hsecond.intern (c := .nameAndType j k) trivial hpair

theorem of_asks {w : Build α} {needs : List Need} (hw : Asks w needs) {a : α}
    (h : Entered stop b) (hrun : w b = .ok (a, b')) : Entered stop b' := by
  induction hw generalizing b b' with
  | pure a =>
    cases hrun
    exact h
  | ask n => exact h.ask hrun
  | bind _ _ hx hf =>
    obtain ⟨a, middle, hfirst, hsecond⟩ := of_bind_ok hrun
    exact hf a (hx h hfirst) hsecond

/-- Settling an entry changes nothing behind the entries but what it asks for. -/
theorem settleEntry (h : Entered stop b) {slot : Nat} {e : Entry} (hslot : slot < stop)
    (hrun : settleEntry slot e b = .ok ((), b')) : Entered stop b' := by
  obtain ⟨c, middle, hspell, hrest⟩ := of_bind_ok hrun
  obtain ⟨⟨⟩, shared, hshare, hset⟩ := of_bind_ok hrest
  have hmiddle := h.of_asks (asks_spell e) hspell
  have hconstants := constants_of_share hshare
  have hshared : shared.constants.Rising := hconstants ▸ hmiddle.rising
  cases hset
  refine ⟨hshared.modify slot fun _ => c, fun i d hi hd => ?_⟩
  have hne : i ≠ slot := by omega
  have hbefore : middle.constants.find? i = some d := by
    rw [← hconstants, ← hd]
    exact ((hshared.find?_modify slot (fun _ => c) i).trans (if_neg hne)).symm
  obtain ⟨j, hj, hji⟩ := hmiddle.slot? i d hi hbefore
  exact ⟨j, (slot?_constants _ d).trans ((shares_share hshare).agrees d j hj), hji⟩

/-- So entries are settled: what is added behind them is entered. -/
theorem forM_settleEntry {tasks : List (Nat × Entry)} (h : Entered stop b)
    (hslots : ∀ item ∈ tasks, item.1 < stop)
    (hrun : (tasks.forM fun item => PoolBuilder.settleEntry item.1 item.2) b = .ok ((), b')) :
    Entered stop b' := by
  induction tasks generalizing b with
  | nil =>
    cases hrun
    exact h
  | cons item tasks ih =>
    obtain ⟨⟨⟩, middle, hfirst, hrest⟩ := of_bind_ok hrun
    exact ih (h.settleEntry (hslots item List.mem_cons_self) hfirst)
      (fun other hother => hslots other (List.mem_cons_of_mem _ hother)) hrest

/-- A constant behind the entries is nowhere else. -/
theorem unique (h : Entered stop b) (hb : b.Foremost) {i j : Nat} {c : Constant} (hi : stop ≤ i)
    (hci : b.constants.find? i = some c) (hcj : b.constants.find? j = some c) : j = i := by
  obtain ⟨slot, hslot, rfl⟩ := h.slot? i c hi hci
  -- The tables have the first of its kind, so the other one is behind the entries too.
  obtain ⟨slot', hslot', hle⟩ := hb j c (isShared_of_slot? hslot) hcj
  cases hslot.symm.trans hslot'
  obtain ⟨slot', hslot', rfl⟩ := h.slot? j c (Nat.le_trans hi hle) hcj
  cases hslot.symm.trans hslot'
  rfl

end Entered

/-- While all slots are taken nothing is added behind the entries. -/
theorem entered_of_seed (h : seed entries empty = .ok ((), b)) :
    Entered entries.next b := by
  rw [seed_eq] at h
  obtain ⟨⟨⟩, held, hreserve, hsettle⟩ := of_bind_ok h
  obtain ⟨hheld, hlist⟩ := of_forM_reserve_eq_ok coherent_empty entries.laidOut hreserve
  have hentered : Entered entries.next held := by
    refine ⟨hheld.laidOut.rising, fun i c hi hc => ?_⟩
    rw [Slots.find?_eq_some_iff hheld.laidOut, hlist] at hc
    obtain ⟨item, hitem, heq⟩ := List.mem_map.1 hc
    have hlt := entries.laidOut.rising.lt_next item hitem
    cases heq
    omega
  exact hentered.forM_settleEntry
    (fun item hitem => entries.laidOut.rising.lt_next item (mem_tasks.1 hitem).1) hsettle

/-! ## What can be counted on -/

/-- The slot that a call answers has the entry that was asked for. -/
theorem Need.writes_entry (n : Need) : Writes n.ask n.entry.texts fun p i =>
    ∃ c, p.find? i.toNat = some c ∧ Entry.ofConstant p c = .ok n.entry := by
  cases n with
  | text s => exact (writes_text s).mono fun _ _ hi => ConstantPool.entry_of_utf8 hi
  | className name =>
    exact (writes_className name).mono fun _ _ hi => ConstantPool.entry_of_className hi.2
  | pair name descriptor =>
    exact (writes_pair name descriptor).mono fun _ _ hi => ConstantPool.entry_of_nameAndType hi

/-- Only the number 0 is spelled as what holds a slot. -/
theorem eq_integer_iff_of_spell {e : Entry} {c : Constant} (hb : b.Coherent)
    (h : spell e b = .ok (c, b')) : c = .integer 0 ↔ e = .integer 0 := by
  by_cases he : e.points
  · have hpointing := ((writes_spell he b c b' h hb).2.2 _ (.refl _)).1
    refine iff_of_false (fun hc => ?_) (fun he' => ?_)
    · rw [hc] at hpointing
      exact hpointing
    · rw [he'] at he
      simp [Entry.points, Entry.isShared, Entry.isPointing] at he
  · rw [spell_of_not_points he] at h
    cases h
    exact Entry.holding_eq_integer_iff he

/-- What holds of a builder whose pool starts with the given entries. -/
structure Maintained (entries : EntryPool) (b : PoolBuilder) : Prop where
  limit : b.constants.next ≤ 65535
  texts : ∀ s i, b.texts[s]? = some i → b.constants.find? i.toNat = some (.utf8 s)
  classes : ∀ n i, b.classes[n]? = some i → b.constants.find? i.toNat = some (.className n)
  pairs : ∀ n d i, b.pairs[(n, d)]? = some i → b.constants.find? i.toNat = some (.nameAndType n d)
  /-- What has been added behind the entries is nowhere else. -/
  unique : ∀ i j c, entries.next ≤ i → b.constants.find? i = some c →
    b.constants.find? j = some c → j = i
  /-- No slot of an entry is only held, and what is in it is read as the entry. -/
  seeded : ∀ item ∈ entries.toList, ∃ c, b.constants.find? item.1 = some c ∧
    (c = .integer 0 ↔ item.2 = .integer 0) ∧
      (item.2.Anchored b.constants → Entry.ofConstant b.constants c = .ok item.2)

/-- A pool that bears its entries is maintained once all has been entered. -/
theorem Bears.maintained (h : Bears entries.toList [] b) (hentered : Entered entries.next b) :
    Maintained entries b where
  limit := Nat.le_of_lt_succ h.coherent.limit
  texts := h.coherent.texts
  classes := h.coherent.classes
  pairs := h.coherent.pairs
  unique _ _ _ hi hci hcj := hentered.unique h.foremost hi hci hcj
  seeded item hitem := by
    obtain ⟨c, hc, hspell⟩ := h.placed item hitem List.not_mem_nil
    exact ⟨c, hc, eq_integer_iff_of_spell h.coherent hspell,
      fun hanchored => ofConstant_of_spell_eq_ok h.coherent hanchored hspell⟩

/-- Calls only add to what is there. -/
theorem Reaches.grows (h : Reaches b b') (hb : b.Coherent) :
    (∀ i c, b.constants.find? i = some c → b'.constants.find? i = some c) ∧ b.Agrees b' := by
  obtain ⟨needs, w, hw, hrun⟩ := h
  exact ⟨(hw.writes b () b' hrun hb).2.1.kept, (hw.replays b () b' hrun).1⟩

theorem Reaches.maintained (h : Reaches b b') (hb : Bears entries.toList [] b)
    (hentered : Entered entries.next b) : Bears entries.toList [] b' ∧ Maintained entries b' := by
  obtain ⟨needs, w, hw, hrun⟩ := h
  have hb' := hb.of_asks hw hrun
  exact ⟨hb', hb'.maintained (hentered.of_asks hw hrun)⟩

/-- After seeding and any calls, the tables are true and every entry is in its slot; whatever was in
a slot after some of the calls is still there after all of them, and a call that was answered gets
the same answer again, which means the same as before, from a pool that does not grow. -/
theorem maintained_over_calls {seeded : PoolBuilder}
    (hseed : seed entries empty = .ok ((), seeded)) (calls : List Need) :
    Maintained entries (seeded.after calls) ∧
    (∀ earlier later, calls = earlier ++ later → ∀ i c,
      (seeded.after earlier).constants.find? i = some c →
        (seeded.after calls).constants.find? i = some c) ∧
    ∀ earlier n later i b', calls = earlier ++ n :: later →
      n.ask (seeded.after earlier) = .ok (i, b') →
        (∃ c, b'.constants.find? i.toNat = some c ∧
          (seeded.after calls).constants.find? i.toNat = some c ∧
            Entry.ofConstant (seeded.after calls).constants c = .ok n.entry) ∧
        n.ask (seeded.after calls) = .ok (i, seeded.after calls) := by
  have hbears := bears_of_seed hseed
  have hentered := entered_of_seed hseed
  have hall : ∀ earlier, Bears entries.toList [] (seeded.after earlier) ∧
      Maintained entries (seeded.after earlier) :=
    fun earlier => (reaches_after seeded earlier).maintained hbears hentered
  refine ⟨(hall calls).2, ?_, ?_⟩
  · rintro earlier later rfl
    rw [after_append]
    exact ((reaches_after _ later).grows (hall earlier).1.coherent).1
  · rintro earlier n later i b' rfl hask
    obtain ⟨hb', -, hentry⟩ := n.writes_entry _ i b' hask (hall earlier).1.coherent
    have hafter : seeded.after (earlier ++ n :: later) = b'.after later := by
      rw [after_append, after, List.foldl_cons, Need.leave_of_ask hask]
      rfl
    obtain ⟨hkept, hagrees⟩ := (reaches_after b' later).grows hb'
    rw [hafter]
    refine ⟨?_, (n.replays_ask _ i b' hask).2 _ hagrees⟩
    obtain ⟨c, hc, -⟩ := hentry _ (.refl _)
    obtain ⟨d, hd, hread⟩ := hentry _ fun j c _ hc => hkept j c hc
    cases hd.symm.trans (hkept _ c hc)
    exact ⟨c, hc, hd, hread⟩

/-- The text of a class gets the last slot, and the class itself finds no room. -/
theorem leave_className_of_last {name : String} (hnext : b.constants.next + 1 = slotLimit)
    (htexts : b.texts[name]? = none)
    (hclasses : b.classes[UInt16.ofNat b.constants.next]? = none) :
    ∃ o b', (Need.className name).ask b = .error o ∧ (Need.className name).leave b = b' ∧
      (Need.text name).ask b' = .ok (UInt16.ofNat b.constants.next, b') := by
  let slot := UInt16.ofNat b.constants.next
  let b' : PoolBuilder :=
    { b with
      constants := b.constants.push (.utf8 name)
      texts := b.texts.insert name slot }
  have htext : PoolBuilder.text name b = .ok (slot, b') := by
    simp [PoolBuilder.text, htexts, push, Constant.width, hnext, bind, Except.bind, pure,
      Except.pure, slot, b']
  have hfull : ¬ b.constants.next + 1 + 1 ≤ slotLimit := by omega
  have hclass : classAt slot b' = .error ⟨.className slot, b.constants.next + 1⟩ := by
    simp [classAt, hclasses, push, Constant.width, Wide.width, hfull, bind, Except.bind, slot, b']
  refine ⟨_, b', (bind_of_ok htext).trans hclass, ?_, text_again htext⟩
  rw [Need.leave, through_of_ok htext, through_of_error hclass]

/-- A class that fills its pool up to the last slot has no other name, and no class by the slot that
is left. -/
theorem exists_seed_filled {text name : String} (hne : name ≠ text) {n : Nat}
    (hn : 4 + n = slotLimit) : ∃ seeded, seed (.filled text text n) empty = .ok ((), seeded) ∧
      seeded.constants.next = 3 + n ∧ seeded.texts[name]? = none ∧
        seeded.classes[UInt16.ofNat (3 + n)]? = none := by
  have hpool := EntryPool.ofPool_filled text n
  have hp := ConstantPool.laidOut_filled text n
  obtain ⟨-, -, -, hfilled⟩ := ConstantPool.toList_filled text n
  obtain ⟨hnext, -⟩ := EntryPool.of_ofPool_eq_ok hp hpool
  obtain ⟨seeded, hseed, hsame⟩ := exists_seed (EntryPool.closed_of_ofPool hp hpool) (by
    rw [hnext, hfilled]
    omega)
  rw [hnext, hfilled] at hsame
  have hseeded := seeded_of_seed hseed
  refine ⟨seeded, hseed, hsame, ?_, ?_⟩ <;> rw [Option.eq_none_iff_forall_ne_some] <;> intro i hi
  · obtain ⟨item, hitem, hmem⟩ := (hseeded.spells name).1 ⟨_, hseeded.coherent.texts name i hi⟩
    rcases EntryPool.mem_filled hitem with h | h | h <;> simp [h, Entry.texts, hne] at hmem
  · -- The class would be read, and its name with it.
    have hfind := hseeded.coherent.classes _ i hi
    obtain ⟨e, he⟩ : ∃ e, Entry.ofConstant seeded.constants
        (.className (UInt16.ofNat (3 + n))) = .ok e := by
      rcases hseeded.sound _ _ hfind with ⟨e, he⟩ | hsound
      · obtain ⟨c, hc, hstands⟩ := hseeded.stands _ he
        cases hfind.symm.trans hc
        refine ⟨e, hstands.resolves _ (.refl _) ?_⟩
        rcases EntryPool.mem_filled he with h | h | h <;> cases h <;> trivial
      · exact hsound.resolves
    cases Entry.ofConstant_eq_ok_iff.1 he with | className hs =>
    have hlt := hseeded.coherent.lt_next (ConstantPool.utf8_eq_ok_iff.1 hs)
    have hsmall : 3 + n < 65536 := by
      unfold slotLimit at hn
      omega
    rw [hsame, UInt16.toNat_ofNat_of_lt' hsmall] at hlt
    exact Nat.lt_irrefl _ hlt

/-- The last slot of a pool gets the text `B`, and the class with that name finds no room. The text
is kept and answered from then on. -/
theorem maintained_over_calls_full : ∃ seeded,
    seed (.filled "A" "A" 65531) empty = .ok ((), seeded) ∧
    (∃ o, (Need.className "B").ask seeded = .error o) ∧
    Maintained (.filled "A" "A" 65531) (seeded.after [.className "B", .text "B"]) ∧
    (Need.text "B").ask (seeded.after [.className "B", .text "B"]) =
      .ok (65534, seeded.after [.className "B", .text "B"]) := by
  obtain ⟨seeded, hseed, hnext, htexts, hclasses⟩ :=
    exists_seed_filled (show "B" ≠ "A" by decide) (show 4 + 65531 = slotLimit from rfl)
  rw [← hnext] at hclasses
  obtain ⟨o, b', hask, hleave, htext⟩ :=
    leave_className_of_last (by rw [hnext]; rfl) htexts hclasses
  rw [hnext] at htext
  have hcalls := maintained_over_calls hseed [.className "B", .text "B"]
  refine ⟨seeded, hseed, ⟨o, hask⟩, hcalls.1, ?_⟩
  exact (hcalls.2.2 [.className "B"] (.text "B") [] 65534 b' rfl (hleave ▸ htext)).2

end Crosswalk.PoolBuilder
