import Mathlib.Data.List.Forall2
import Crosswalk.Proofs.Text.Modified

/-!
# Which bodies are written as they are read

A body is a row of sequences, one for each unit (`decodeUnits_eq_ok_iff`). A unit can be spelled in
more ways than one: as a byte of zero, or by a sequence that is longer than need be. A body is what
`encodeUnit` makes of its units exactly if it has neither (`flatMap_encodeUnit_eq_iff`). Every byte
says by itself whether it starts a sequence, so that it does not matter where in a body one looks
for sequences.
-/

namespace Crosswalk.Modified

/-! ## Sequences -/

/-- The bytes are a sequence that spells the unit. -/
inductive Sequence : Bytes → UInt16 → Prop
  | one {lead : UInt8} (hlead : lead < 0x80) : Sequence [lead] lead.toUInt16
  | two {lead next : UInt8} (hlow : ¬lead < 0xC0) (hlead : lead < 0xE0)
    (hnext : isContinuation next = true) : Sequence [lead, next] (unit2 lead next)
  | three {lead next last : UInt8} (hlow : ¬lead < 0xE0) (hlead : lead < 0xF0)
    (hnext : isContinuation next = true) (hlast : isContinuation last = true) :
    Sequence [lead, next, last] (unit3 lead next last)

/-- A sequence that takes more bytes than its unit does when it is written. -/
def Overlong (s : Bytes) : Prop :=
  ∃ u, Sequence s u ∧ (encodeUnit u).length < s.length

/-- Two bytes for the letter `A`, which one byte is enough for. -/
example : Overlong [0xC1, 0x81] :=
  ⟨_, .two (by decide) (by decide) (by decide), by decide⟩

/-- A body without a zero byte and without an overlong sequence. -/
structure Canonical (body : Bytes) : Prop where
  noZero : (0 : UInt8) ∉ body
  shortest : ∀ s, s <:+: body → ¬Overlong s

theorem isContinuation_iff {b : UInt8} :
    isContinuation b = true ↔ 0x80 ≤ b.toNat ∧ b.toNat < 0xC0 := by
  simp [isContinuation, UInt8.le_iff_toNat_le, UInt8.lt_iff_toNat_lt]

/-- A sequence is read as its unit. -/
theorem Sequence.decodeUnitsAfter {s : Bytes} {u : UInt16} (h : Sequence s u) (done : List UInt16)
    (body : Bytes) :
    decodeUnitsAfter done (s ++ body) = Modified.decodeUnitsAfter (u :: done) body := by
  cases h with
  | one hlead => exact decodeUnitsAfter_single hlead done body
  | two hlow hlead hnext =>
    have hone : ¬_ < (0x80 : UInt8) := fun h => hlow (UInt8.lt_trans h (by decide))
    rw [List.cons_append, List.cons_append, List.nil_append, Modified.decodeUnitsAfter, if_neg hone,
      if_neg hlow, if_pos hlead]
    simp only [hnext, if_true]
  | three hlow hlead hnext hlast =>
    have htwo : ¬_ < (0xC0 : UInt8) := fun h => hlow (UInt8.lt_trans h (by decide))
    have hone : ¬_ < (0x80 : UInt8) := fun h => hlow (UInt8.lt_trans h (by decide))
    rw [List.cons_append, List.cons_append, List.cons_append, List.nil_append,
      Modified.decodeUnitsAfter, if_neg hone, if_neg htwo, if_neg hlow, if_pos hlead]
    simp only [hnext, hlast, Bool.and_self, if_true]

/-- Sequences in a row are read as their units in a row. -/
theorem decodeUnitsAfter_flatten {ss : List Bytes} {us : List UInt16}
    (h : List.Forall₂ Sequence ss us) (done : List UInt16) (body : Bytes) :
    decodeUnitsAfter done (ss.flatten ++ body) = decodeUnitsAfter (us.reverse ++ done) body := by
  induction h generalizing done with
  | nil => rfl
  | cons hfirst _ ih =>
    rw [List.flatten_cons, List.append_assoc, hfirst.decodeUnitsAfter, ih]
    simp

/-- What is read is a row of sequences. -/
theorem exists_sequences {done us : List UInt16} {body : Bytes}
    (h : decodeUnitsAfter done body = .ok us) :
    ∃ ss read, List.Forall₂ Sequence ss read ∧ ss.flatten = body ∧ us = done.reverse ++ read := by
  fun_induction decodeUnitsAfter done body with
  | case1 done =>
    cases h
    exact ⟨[], [], .nil, rfl, by simp⟩
  | case2 done lead rest hone ih =>
    obtain ⟨ss, read, hss, rfl, rfl⟩ := ih h
    exact ⟨_ :: ss, _ :: read, .cons (.one hone) hss, rfl, by simp⟩
  | case4 done lead hone hlead htwo next rest hnext ih =>
    obtain ⟨ss, read, hss, rfl, rfl⟩ := ih h
    exact ⟨_ :: ss, _ :: read, .cons (.two hlead htwo hnext) hss, rfl, by simp⟩
  | case7 done lead hone hlead htwo hthree next last rest hnext ih =>
    obtain ⟨ss, read, hss, rfl, rfl⟩ := ih h
    rw [Bool.and_eq_true] at hnext
    exact ⟨_ :: ss, _ :: read, .cons (.three htwo hthree hnext.1 hnext.2) hss, rfl, by simp⟩
  | case3 | case5 | case6 | case8 | case9 | case10 => cases h

/-- A body spells units exactly if it is a row of sequences for them. -/
theorem decodeUnits_eq_ok_iff {body : Bytes} {us : List UInt16} :
    decodeUnits body = .ok us ↔ ∃ ss, List.Forall₂ Sequence ss us ∧ ss.flatten = body := by
  constructor
  · intro h
    obtain ⟨ss, read, hss, hbody, rfl⟩ := exists_sequences h
    exact ⟨ss, by simpa using hss, hbody⟩
  · rintro ⟨ss, hss, rfl⟩
    have h := decodeUnitsAfter_flatten hss [] []
    rw [List.append_nil] at h
    rw [decodeUnits, h]
    simp [decodeUnitsAfter]

/-! ## Sequences for one unit -/

theorem toNat_unit2 (lead next : UInt8) :
    (unit2 lead next).toNat = lead.toNat % 32 * 64 + next.toNat % 64 := by
  simp only [unit2, UInt16.toNat_add, UInt16.toNat_mul, UInt8.toNat_toUInt16, UInt8.toNat_mod,
    UInt8.reduceToNat, UInt16.reduceToNat]
  omega

theorem toNat_unit3 (lead next last : UInt8) : (unit3 lead next last).toNat =
    lead.toNat % 16 * 4096 + next.toNat % 64 * 64 + last.toNat % 64 := by
  simp only [unit3, UInt16.toNat_add, UInt16.toNat_mul, UInt8.toNat_toUInt16, UInt8.toNat_mod,
    UInt8.reduceToNat, UInt16.reduceToNat]
  omega

/-- How many bytes a unit takes. -/
theorem encodeUnit_cases (u : UInt16) :
    0 < u.toNat ∧ u.toNat < 0x80 ∧ encodeUnit u = [u.toUInt8] ∨
    (u.toNat = 0 ∨ 0x80 ≤ u.toNat) ∧ u.toNat < 0x800 ∧
      encodeUnit u = [0xC0 + (u / 64).toUInt8, 0x80 + (u % 64).toUInt8] ∨
    0x800 ≤ u.toNat ∧ encodeUnit u =
      [0xE0 + (u / 4096).toUInt8, 0x80 + (u / 64 % 64).toUInt8, 0x80 + (u % 64).toUInt8] := by
  unfold encodeUnit
  simp only [UInt16.lt_iff_toNat_lt, UInt16.reduceToNat]
  split
  · next hone => exact .inl ⟨hone.1, hone.2, rfl⟩
  · split
    · next hone htwo => exact .inr (.inl ⟨by omega, htwo, rfl⟩)
    · next hone htwo => exact .inr (.inr ⟨by omega, rfl⟩)

/-- A unit is written as a sequence for it. -/
theorem sequence_encodeUnit (u : UInt16) : Sequence (encodeUnit u) u := by
  rcases encodeUnit_cases u with ⟨-, hone, hu⟩ | ⟨-, htwo, hu⟩ | ⟨-, hu⟩
  · have hlead : u.toUInt8 < 0x80 := by
      simp only [UInt8.lt_iff_toNat_lt, UInt16.toNat_toUInt8, UInt8.reduceToNat]
      omega
    have hsequence := Sequence.one hlead
    rwa [toUInt16_toUInt8 (by omega), ← hu] at hsequence
  · obtain ⟨hlead, hnext⟩ := two_bytes u htwo
    have hsequence := @Sequence.two (0xC0 + (u / 64).toUInt8) (0x80 + (u % 64).toUInt8)
      (by simp only [UInt8.lt_iff_toNat_lt, hlead, UInt8.reduceToNat]; omega)
      (by simp only [UInt8.lt_iff_toNat_lt, hlead, UInt8.reduceToNat]; omega)
      (isContinuation_of_toNat hnext (by omega))
    rwa [unit2_bytes htwo, ← hu] at hsequence
  · obtain ⟨hlead, hnext, hlast⟩ := three_bytes u
    have hlt := u.toNat_lt
    have hsequence := @Sequence.three (0xE0 + (u / 4096).toUInt8)
      (0x80 + (u / 64 % 64).toUInt8) (0x80 + (u % 64).toUInt8)
      (by simp only [UInt8.lt_iff_toNat_lt, hlead, UInt8.reduceToNat]; omega)
      (by simp only [UInt8.lt_iff_toNat_lt, hlead, UInt8.reduceToNat]; omega)
      (isContinuation_of_toNat hnext (by omega)) (isContinuation_of_toNat hlast (by omega))
    rwa [unit3_bytes, ← hu] at hsequence

/-- A sequence is what its unit is written as, unless it is a zero byte or overlong. -/
theorem Sequence.eq_or {s : Bytes} {u : UInt16} (h : Sequence s u) :
    s = encodeUnit u ∨ s = [0] ∨ (encodeUnit u).length < s.length := by
  -- A sequence of as many bytes as its unit needs has the bytes that the unit is written as.
  cases h with
  | @one lead hlead =>
    by_cases hzero : lead = 0
    · exact .inr (.inl (by rw [hzero]))
    · have hpos : lead.toNat ≠ 0 := fun h => hzero (UInt8.toNat_inj.1 h)
      simp only [UInt8.lt_iff_toNat_lt, UInt8.reduceToNat] at hlead
      rcases encodeUnit_cases lead.toUInt16 with ⟨-, -, hu⟩ | ⟨hu, -, -⟩ | ⟨hu, -⟩
      · exact .inl (by rw [hu, UInt8.toUInt8_toUInt16])
      · rw [UInt8.toNat_toUInt16] at hu
        omega
      · rw [UInt8.toNat_toUInt16] at hu
        omega
  | @two lead next hlow hlead hnext =>
    rw [isContinuation_iff] at hnext
    simp only [UInt8.lt_iff_toNat_lt, UInt8.reduceToNat] at hlow hlead
    have hunit := toNat_unit2 lead next
    rcases encodeUnit_cases (unit2 lead next) with ⟨-, -, hu⟩ | ⟨-, htwo, hu⟩ | ⟨hthree, -⟩
    · exact .inr (.inr (by rw [hu]; simp))
    · obtain ⟨hfirst, hsecond⟩ := two_bytes _ htwo
      have hlead' : lead = 0xC0 + (unit2 lead next / 64).toUInt8 := UInt8.toNat_inj.1 (by omega)
      have hnext' : next = 0x80 + (unit2 lead next % 64).toUInt8 := UInt8.toNat_inj.1 (by omega)
      exact .inl (by rw [hu, ← hlead', ← hnext'])
    · omega
  | @three lead next last hlow hlead hnext hlast =>
    rw [isContinuation_iff] at hnext hlast
    simp only [UInt8.lt_iff_toNat_lt, UInt8.reduceToNat] at hlow hlead
    have hunit := toNat_unit3 lead next last
    rcases encodeUnit_cases (unit3 lead next last) with ⟨-, -, hu⟩ | ⟨-, -, hu⟩ | ⟨-, hu⟩
    · exact .inr (.inr (by rw [hu]; simp))
    · exact .inr (.inr (by rw [hu]; simp))
    · obtain ⟨hfirst, hsecond, hthird⟩ := three_bytes (unit3 lead next last)
      have hlead' : lead = 0xE0 + (unit3 lead next last / 4096).toUInt8 :=
        UInt8.toNat_inj.1 (by omega)
      have hnext' : next = 0x80 + (unit3 lead next last / 64 % 64).toUInt8 :=
        UInt8.toNat_inj.1 (by omega)
      have hlast' : last = 0x80 + (unit3 lead next last % 64).toUInt8 :=
        UInt8.toNat_inj.1 (by omega)
      exact .inl (by rw [hu, ← hlead', ← hnext', ← hlast'])

/-- A sequence is overlong if it takes two bytes for what one is enough for, or three bytes for what
two are. -/
theorem overlong_iff {s : Bytes} : Overlong s ↔ ∃ u, Sequence s u ∧
    (2 ≤ s.length ∧ 0 < u.toNat ∧ u.toNat < 0x80 ∨ 3 ≤ s.length ∧ u.toNat < 0x800) := by
  refine exists_congr fun u => and_congr_right fun h => ?_
  have hthree : s.length ≤ 3 := by cases h <;> simp
  rcases encodeUnit_cases u with ⟨hpos, hone, hu⟩ | ⟨hfew, htwo, hu⟩ | ⟨hmany, hu⟩
  all_goals
    rw [hu]
    simp only [List.length_cons, List.length_nil]
    omega

/-- A unit takes at most twice as many bytes as any sequence for it. -/
theorem Sequence.length_encodeUnit_le {s : Bytes} {u : UInt16} (h : Sequence s u) :
    (encodeUnit u).length ≤ 2 * s.length := by
  cases h with
  | @one lead hlead =>
    simp only [UInt8.lt_iff_toNat_lt, UInt8.reduceToNat] at hlead
    rcases encodeUnit_cases lead.toUInt16 with ⟨-, -, hu⟩ | ⟨-, -, hu⟩ | ⟨hu, -⟩
    · rw [hu]
      simp
    · rw [hu]
      simp
    · rw [UInt8.toNat_toUInt16] at hu
      omega
  | two _ _ _ | three _ _ _ _ =>
    rcases encodeUnit_cases _ with ⟨-, -, hu⟩ | ⟨-, -, hu⟩ | ⟨-, hu⟩ <;> rw [hu] <;> simp

/-! ## Where sequences start -/

/-- The first byte of a sequence continues none, and says how many bytes do. -/
theorem Sequence.exists_lead {s : Bytes} {u : UInt16} (h : Sequence s u) : ∃ lead tail,
    s = lead :: tail ∧ isContinuation lead = false ∧ (∀ b ∈ tail, isContinuation b = true) ∧
      tail.length = if lead < 0x80 then 0 else if lead < 0xE0 then 1 else 2 := by
  have hcontinues : ∀ {lead : UInt8}, ¬lead < 0xC0 → isContinuation lead = false := by
    intro lead hlead
    simp only [isContinuation, hlead, decide_false, Bool.and_false]
  cases h with
  | @one lead hlead =>
    have hlow : ¬0x80 ≤ lead := UInt8.not_le.2 hlead
    exact ⟨lead, [], rfl, by simp [isContinuation, hlow], by simp, by rw [if_pos hlead]; rfl⟩
  | @two lead next hlow hlead hnext =>
    have hone : ¬lead < 0x80 := fun h => hlow (UInt8.lt_trans h (by decide))
    exact ⟨lead, [next], rfl, hcontinues hlow, by simpa using hnext,
      by rw [if_neg hone, if_pos hlead]; rfl⟩
  | @three lead next last hlow hlead hnext hlast =>
    have htwo : ¬lead < 0xC0 := fun h => hlow (UInt8.lt_trans h (by decide))
    have hone : ¬lead < 0x80 := fun h => htwo (UInt8.lt_trans h (by decide))
    exact ⟨lead, [next, last], rfl, hcontinues htwo, by simp [hnext, hlast],
      by rw [if_neg hone, if_neg hlow]; rfl⟩

/-- Two sequences that start at the same place are the same. -/
theorem Sequence.eq_of_append {s t x y : Bytes} {u v : UInt16} (hs : Sequence s u)
    (ht : Sequence t v) (h : s ++ x = t ++ y) : s = t := by
  obtain ⟨lead, tail, rfl, -, -, hlength⟩ := hs.exists_lead
  obtain ⟨lead', tail', rfl, -, -, hlength'⟩ := ht.exists_lead
  rw [List.cons_append, List.cons_append, List.cons.injEq] at h
  obtain ⟨rfl, h⟩ := h
  rw [(List.append_inj h (hlength.trans hlength'.symm)).1]

/-- A sequence spells one unit. -/
theorem Sequence.unit_unique {s : Bytes} {u v : UInt16} (hu : Sequence s u) (hv : Sequence s v) :
    u = v := by
  have h := (hu.decodeUnitsAfter [] []).symm.trans (hv.decodeUnitsAfter [] [])
  simpa [Modified.decodeUnitsAfter] using h

/-- A byte in a row of sequences that continues none starts one of them. -/
theorem exists_sequence_at {ss : List Bytes} {us : List UInt16} (h : List.Forall₂ Sequence ss us)
    {front back : Bytes} {lead : UInt8} (hlead : isContinuation lead = false)
    (hsplit : ss.flatten = front ++ lead :: back) : ∃ s ∈ ss, ∃ rest, s ++ rest = lead :: back := by
  induction h generalizing front with
  | nil => simp at hsplit
  | @cons s u ss us hfirst _ ih =>
    rw [List.flatten_cons] at hsplit
    rcases List.append_eq_append_iff.1 hsplit with ⟨middle, rfl, hrest⟩ | ⟨middle, rfl, hrest⟩
    · obtain ⟨t, ht, rest, hstart⟩ := ih hrest
      exact ⟨t, List.mem_cons_of_mem _ ht, rest, hstart⟩
    · cases front with
      | nil => exact ⟨middle, by simp, ss.flatten, hrest.symm⟩
      | cons first front =>
        cases middle with
        | nil =>
          have hflat : ss.flatten = [] ++ lead :: back := hrest.symm
          obtain ⟨t, ht, rest, hstart⟩ := ih hflat
          exact ⟨t, List.mem_cons_of_mem _ ht, rest, hstart⟩
        | cons other middle =>
          -- Inside of a sequence every byte continues it.
          obtain ⟨lead', tail, hs, -, htail, -⟩ := hfirst.exists_lead
          rw [List.cons_append, List.cons.injEq] at hs hrest
          have hcontinues := htail other (by rw [← hs.2]; simp)
          rw [← hrest.1, hlead] at hcontinues
          cases hcontinues

/-! ## Bodies -/

/-- No unit is written with a zero byte. -/
theorem zero_notMem_encodeUnit (u : UInt16) : (0 : UInt8) ∉ encodeUnit u := by
  intro h
  obtain ⟨lead, tail, hs, -, htail, -⟩ := (sequence_encodeUnit u).exists_lead
  rw [hs] at h
  rcases List.mem_cons.1 h with hzero | htailZero
  · rcases encodeUnit_cases u with ⟨hpos, hone, hu⟩ | ⟨-, htwo, hu⟩ | ⟨-, hu⟩
    all_goals
      rw [hu, List.cons.injEq, ← hzero] at hs
      have hfirst : _ = 0 := congrArg UInt8.toNat hs.1
    · rw [UInt16.toNat_toUInt8] at hfirst
      omega
    · rw [(two_bytes u htwo).1] at hfirst
      omega
    · rw [(three_bytes u).1] at hfirst
      omega
  · exact absurd (htail 0 htailZero) (by decide)

/-- A body is what its units are written as exactly if it has no zero byte and no overlong
sequence. -/
theorem flatMap_encodeUnit_eq_iff {body : Bytes} {us : List UInt16}
    (h : decodeUnits body = .ok us) : us.flatMap encodeUnit = body ↔ Canonical body := by
  constructor
  · rintro rfl
    have hrow : List.Forall₂ Sequence (us.map encodeUnit) us := by
      rw [List.forall₂_map_left_iff, List.forall₂_same]
      exact fun u _ => sequence_encodeUnit u
    refine ⟨fun hzero => ?_, ?_⟩
    · obtain ⟨u, -, hu⟩ := List.mem_flatMap.1 hzero
      exact zero_notMem_encodeUnit u hu
    · rintro s ⟨front, back, hsplit⟩ ⟨u, hs, hlonger⟩
      obtain ⟨lead, tail, rfl, hlead, -⟩ := hs.exists_lead
      rw [List.flatMap_def, List.append_assoc, List.cons_append] at hsplit
      -- An overlong sequence would start where one of the written ones does, and be that one.
      obtain ⟨t, ht, rest, hstart⟩ := exists_sequence_at hrow hlead hsplit.symm
      obtain ⟨v, -, rfl⟩ := List.mem_map.1 ht
      have hsame :=
        hs.eq_of_append (sequence_encodeUnit v) (hstart.symm : (lead :: tail) ++ back = _)
      rw [hsame] at hs hlonger
      rw [hs.unit_unique (sequence_encodeUnit v)] at hlonger
      exact Nat.lt_irrefl _ hlonger
  · intro hcanonical
    obtain ⟨ss, hss, rfl⟩ := decodeUnits_eq_ok_iff.1 h
    have hwritten : List.Forall₂ (fun s u => s = encodeUnit u) ss us := by
      refine List.forall₂_iff_zip.2 ⟨hss.length_eq, fun {s u} hzip => ?_⟩
      have hmem := (List.of_mem_zip hzip).1
      rcases (List.forall₂_zip hss hzip).eq_or with hs | rfl | hlonger
      · exact hs
      · exact absurd (List.mem_flatten_of_mem hmem List.mem_cons_self) hcanonical.noZero
      · exact absurd ⟨u, List.forall₂_zip hss hzip, hlonger⟩
          (hcanonical.shortest s (List.infix_of_mem_flatten hmem))
    rw [← List.forall₂_map_right_iff (f := encodeUnit), List.forall₂_eq_eq_eq] at hwritten
    rw [hwritten, List.flatMap_def]

/-- A body is canonical if its bytes are not zero, and every unit takes as few of them as it can. -/
theorem canonical_iff {body : Bytes} : Canonical body ↔ (0 : UInt8) ∉ body ∧
    ∀ s u, s <:+: body → Sequence s u →
      ¬(2 ≤ s.length ∧ 0 < u.toNat ∧ u.toNat < 0x80) ∧ ¬(3 ≤ s.length ∧ u.toNat < 0x800) := by
  constructor
  · rintro ⟨hzero, hshortest⟩
    refine ⟨hzero, fun s u hs hu => not_or.1 fun hlong => ?_⟩
    exact hshortest s hs (overlong_iff.2 ⟨u, hu, hlong⟩)
  · rintro ⟨hzero, hshortest⟩
    refine ⟨hzero, fun s hs hlong => ?_⟩
    obtain ⟨u, hu, hlong⟩ := overlong_iff.1 hlong
    exact not_or.2 (hshortest s u hs hu) hlong

/-- No unit is written with a byte above 0xEF. -/
theorem toNat_le_of_mem_encodeUnit {u : UInt16} {b : UInt8} (h : b ∈ encodeUnit u) :
    b.toNat ≤ 0xEF := by
  rcases encodeUnit_cases u with ⟨-, hone, hu⟩ | ⟨-, htwo, hu⟩ | ⟨-, hu⟩
  all_goals rw [hu] at h
  · rw [List.mem_singleton.1 h, UInt16.toNat_toUInt8]
    omega
  · obtain ⟨hlead, hnext⟩ := two_bytes u htwo
    rcases List.mem_pair.1 h with rfl | rfl
    · omega
    · omega
  · obtain ⟨hlead, hnext, hlast⟩ := three_bytes u
    have hlt := u.toNat_lt
    simp only [List.mem_cons, List.not_mem_nil, or_false] at h
    rcases h with rfl | rfl | rfl
    · omega
    · omega
    · omega

/-- What is written takes at most twice as many bytes as what was read. -/
theorem length_flatMap_encodeUnit_le {body : Bytes} {us : List UInt16}
    (h : decodeUnits body = .ok us) : (us.flatMap encodeUnit).length ≤ 2 * body.length := by
  obtain ⟨ss, hss, rfl⟩ := decodeUnits_eq_ok_iff.1 h
  clear h
  induction hss with
  | nil => exact Nat.zero_le _
  | cons hfirst _ ih =>
    have hlength := hfirst.length_encodeUnit_le
    rw [List.flatMap_cons, List.flatten_cons, List.length_append, List.length_append]
    omega

end Crosswalk.Modified
