import Crosswalk.Proofs.ClassTree.Rewriting

/-!
# Classes that are too large

How many slots a class takes can be told before it is written: those of its own pool, and one for
every text, class and pair that it needs and that its pool does not provide. Writing it fails if
these are more than 65534, and for no other reason; otherwise just as many are taken, and their
number is what is written in front of the pool (`ClassTree.encode_overflow_iff`).
-/

namespace Crosswalk

open PoolBuilder (Need)

/-- The pool has the class already, and only its text is another one. -/
theorem EntryPool.lacking_filled {text name : String} (hne : text ≠ name) (n : Nat) :
    (filled text name n).lacking [.className name] = {.text name} := by
  obtain ⟨l, hlist, -⟩ := toList_filled text name n
  have hown : (filled text name n).toList.flatMap (fun item => item.2.needs) =
      ((filled text name n).toList.map Prod.snd).flatMap Entry.needs := by
    rw [List.flatMap_map]
  have hrequired : (filled text name n).required [.className name] =
      [.text name, .text name, .className name] := by
    rw [required, hown, map_snd_filled]
    simp [Entry.needs, Need.parts]
  ext m
  rw [mem_lacking, hrequired, Finset.mem_singleton]
  constructor
  · rintro ⟨hm, hnot⟩
    simp only [List.mem_cons, List.not_mem_nil, or_false, or_self_left] at hm
    rcases hm with rfl | rfl
    · rfl
    · exact absurd ⟨2, by rw [hlist]; simp [Need.entry]⟩ hnot
  · rintro rfl
    refine ⟨List.mem_cons_self, ?_⟩
    rintro ⟨i, hi⟩
    have hmem := List.mem_map_of_mem (f := Prod.snd) hi
    rw [map_snd_filled] at hmem
    simp [Need.entry, hne.symm, List.mem_replicate] at hmem

namespace ClassTree

/-- Everything that the pool of a class has to provide in the end: whatever its own entries and the
rest of the class ask for, part by part. -/
def required (c : ClassTree) : List Need :=
  c.constants.required c.needs

/-- The slots of a class: those of its own pool, and one for each text, class and pair that it
needs and that its pool does not provide. -/
def slotsNeeded (c : ClassTree) : Nat :=
  c.constants.taken + (c.constants.lacking c.needs).card

/-- The slots of the pool in the file of a class. -/
structure Numbered (c : ClassTree) (f : ClassFile) : Prop where
  /-- There are as many as the class needs. -/
  taken : f.constants.taken = c.slotsNeeded
  /-- The number in front of the pool, in the bytes of the file, is the one behind the last slot. -/
  count : ∃ count : UInt16, (f.bytes.drop 8).take 2 = Bytes.ofUInt16 count ∧
    count.toNat = f.constants.taken + 1
  /-- No slot is too large for an index, nor for the number behind it to be written. -/
  bounded : ∀ slot constant, f.constants.find? slot = some constant → slot ≤ 65534
  /-- Whatever is needed has a slot. -/
  answers : ∀ n ∈ c.required, f.constants.Meets n

theorem build_of_encode_eq_error {c : ClassTree} {o : Overflow} (h : encode c = .error o) :
    c.build .empty = .error o := by
  cases hbuild : c.build .empty with
  | error o' =>
    have hencode : encode c = .error o' := by
      unfold encode toFile
      rw [StateT.run, hbuild]
      rfl
    cases hencode.symm.trans h
    rfl
  | ok built =>
    have hfile : c.toFile = .ok (built.1 built.2.constants) := map_eq_ok_iff.2 ⟨built, hbuild, rfl⟩
    rw [encode, hfile] at h
    cases h

theorem take_drop_bytes (f : ClassFile) :
    (f.bytes.drop 8).take 2 = Bytes.ofUInt16 (UInt16.ofNat f.constants.next) := rfl

/-- The pool of a file that is built has the slots that the class needs. -/
theorem numbered_of_toFile {c : ClassTree} {f : ClassFile}
    (h : c.toFile = .ok f) : c.Numbered f := by
  obtain ⟨⟨file, built⟩, hbuild, rfl⟩ := map_eq_ok_iff.1 h
  have hfilled := (PoolBuilder.counts_seed c.constants (asks_buildBody c)).1 file built hbuild
  rw [build_eq] at hbuild
  obtain ⟨⟨⟩, seeded, hseed, hbody⟩ := PoolBuilder.of_bind_ok hbuild
  have hseeded := (PoolBuilder.seeded_of_seed hseed).coherent
  obtain ⟨texts, hwrites⟩ := writes_names c
  obtain ⟨hcoherent, -, hnames⟩ := hwrites seeded file built hbody hseeded
  have hconstants := (hnames built.constants (.refl _)).1
  have hlimit : built.constants.next ≤ 65535 := hfilled.limit
  have htaken : built.constants.taken = c.slotsNeeded := by
    have hnext := hcoherent.laidOut.next_eq
    rw [hfilled.next, Nat.add_assoc] at hnext
    exact (Nat.add_left_cancel hnext).symm
  constructor
  · rw [hconstants, htaken]
  · refine ⟨_, take_drop_bytes _, ?_⟩
    rw [hconstants, UInt16.toNat_ofNat_of_lt' (Nat.lt_succ_of_le hlimit),
      hcoherent.laidOut.next_eq, Nat.add_comm]
  · rw [hconstants]
    intro slot constant hfind
    have hmem := (Slots.find?_eq_some_iff hcoherent.laidOut).1 hfind
    have hbound : slot + Wide.width constant ≤ built.constants.next :=
      ((Slots.Laid.bounds hcoherent.laidOut).2 _ hmem).2
    have hpos := LawfulWide.width_pos constant
    omega
  · rw [hconstants]
    exact fun n hn => hcoherent.meets_of_knows (hfilled.knows n hn)

/-- A class is only refused for a constant that has no room, and it needs more slots than there are.
-/
theorem proper_of_encode_eq_error {c : ClassTree} {o : Overflow} (h : encode c = .error o) :
    o.Proper ∧ 65534 < c.slotsNeeded := by
  obtain ⟨hproper, hfull⟩ :=
    (PoolBuilder.counts_seed c.constants (asks_buildBody c)).2 o (build_of_encode_eq_error h)
  refine ⟨hproper, ?_⟩
  unfold slotsNeeded
  rw [PoolBuilder.slotLimit] at hfull
  omega

/-- Whatever a class needs has to be told from what its pool has already. -/
theorem slotsNeeded_le (c : ClassTree) : c.slotsNeeded ≤ c.constants.taken + c.required.length :=
  Nat.add_le_add_left ((Finset.card_filter_le ..).trans (List.toFinset_card_le _)) _

/-- So a class is written that does not even need all slots if its pool provides nothing. -/
theorem exists_encode_of_required {c : ClassTree}
    (h : c.constants.taken + c.required.length ≤ 65534) : ∃ out, encode c = .ok out := by
  cases hencode : encode c with
  | error o =>
    have hlarge := (proper_of_encode_eq_error hencode).2
    exact absurd (c.slotsNeeded_le.trans h) (Nat.not_le.2 hlarge)
  | ok out => exact ⟨out, rfl⟩

/-- A class is refused if and only if it needs more slots than there are, and then for a constant
that has no room. If it is written, all its slots can be told by an index, and their number is told.
-/
theorem encode_overflow_iff (c : ClassTree) :
    ((∃ o, encode c = .error o) ↔ 65534 < c.slotsNeeded) ∧
      (∀ o, encode c = .error o → 65535 < o.offset + o.constant.width) ∧
      ∀ out, encode c = .ok out → ∃ f, c.toFile = .ok f ∧ f.bytes = out ∧ c.Numbered f := by
  refine ⟨⟨?_, fun hlarge => ?_⟩, fun o h => (proper_of_encode_eq_error h).1, ?_⟩
  · rintro ⟨o, h⟩
    exact (proper_of_encode_eq_error h).2
  · cases hencode : encode c with
    | error o => exact ⟨o, rfl⟩
    | ok out =>
      -- What has been built would have to be larger than there is room for.
      obtain ⟨f, hfile, -⟩ := encode_eq_ok_iff.1 hencode
      obtain ⟨⟨file, built⟩, hbuild, -⟩ := map_eq_ok_iff.1 hfile
      have hfilled :=
        (PoolBuilder.counts_seed c.constants (asks_buildBody c)).1 file built hbuild
      have hlimit := hfilled.limit
      rw [hfilled.next, PoolBuilder.slotLimit] at hlimit
      unfold slotsNeeded at hlarge
      omega
  · intro out h
    obtain ⟨f, hfile, hbytes⟩ := encode_eq_ok_iff.1 h
    exact ⟨f, hfile, hbytes, numbered_of_toFile hfile⟩

/-! ## At the limit -/

/-- A class that fills its pool and has a new name needs one slot besides. -/
theorem slotsNeeded_filled {text name : String} (hne : text ≠ name) (n : Nat) :
    (bare name none (.filled text name n)).slotsNeeded = n + 3 := by
  have hneeds : (bare name none (.filled text name n)).needs = [.className name] := rfl
  have hconstants : (bare name none (.filled text name n)).constants = .filled text name n := rfl
  rw [slotsNeeded, hneeds, hconstants, EntryPool.taken_filled, EntryPool.lacking_filled hne,
    Finset.card_singleton]

/-- The last slot can be taken, and there is none behind it. -/
theorem encode_overflow_iff_filled :
    (∃ o, encode (bare "B" none (.filled "A" "B" 65532)) = .error o ∧
      65535 < o.offset + o.constant.width) ∧
      ∃ f, encode (bare "B" none (.filled "A" "B" 65531)) = .ok f.bytes ∧
        (bare "B" none (.filled "A" "B" 65531)).Numbered f := by
  have hne : "A" ≠ "B" := by decide
  constructor
  · obtain ⟨hiff, hproper, -⟩ := encode_overflow_iff (bare "B" none (.filled "A" "B" 65532))
    rw [slotsNeeded_filled hne] at hiff
    obtain ⟨o, ho⟩ := hiff.2 (by omega)
    exact ⟨o, ho, hproper o ho⟩
  · -- Only the sum counts, and nothing is to be unfolded as many times.
    generalize hn : 65531 = n
    obtain ⟨hiff, -, hnumbered⟩ := encode_overflow_iff (bare "B" none (.filled "A" "B" n))
    rw [slotsNeeded_filled hne] at hiff
    cases hencode : encode (bare "B" none (.filled "A" "B" n)) with
    | error o => exact absurd (hiff.1 ⟨o, hencode⟩) (by omega)
    | ok out =>
      obtain ⟨f, -, rfl, hf⟩ := hnumbered out hencode
      exact ⟨f, rfl, hf⟩

end ClassTree

end Crosswalk
