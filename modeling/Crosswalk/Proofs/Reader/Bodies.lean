import Crosswalk.ClassTree.Scope
import Crosswalk.Proofs.Outcome
import Crosswalk.Proofs.Reader.Reads

/-!
# Attribute bodies read to their end

A body is read whole if its reader leaves nothing. A list in it is only read back if its length has
room in the count: a list that is too long announces fewer items than it has, and what is left of
the others makes the body a fault (`whole_counted_eq_ok_iff`).
-/

namespace Crosswalk.Scope

open Reader (Reads Takes Yields)

variable {α : Type} {s : Scope}

/-! ## Slots -/

/-- A slot that holds a text is read as that text. -/
theorem reads_utf8 {i : Index} {text : String} (h : s.pool.utf8 i = .ok text) :
    Reads s.utf8 (Bytes.ofUInt16 i) text :=
  (Reads.u16 s.short i).bind_lift h

/-- A slot that leads to the name of a class is read as that name. -/
theorem reads_className {i : Index} {name : String} (h : s.pool.className i = .ok name) :
    Reads s.className (Bytes.ofUInt16 i) name :=
  (Reads.u16 s.short i).bind_lift h

/-- A text takes the two bytes of its slot. -/
theorem yields_utf8 : Yields s.utf8 fun _ n => n = 2 :=
  (Yields.u16 s.short).bind fun _ _ hn => Yields.lift fun _ _ => hn

theorem yields_className : Yields s.className fun _ n => n = 2 :=
  (Yields.u16 s.short).bind fun _ _ hn => Yields.lift fun _ _ => hn

/-! ## Whole bodies -/

variable {body : Reader Malformed α} {info : Bytes} {a : α}

/-- A body is read whole if nothing is left of it. -/
theorem whole_eq_ok_iff : s.whole body info = .ok a ↔ body info = .ok (a, []) := by
  have hrun : s.whole body info = (body info).bind fun next =>
      if next.2.isEmpty then .ok next.1
      else .error (.trailingAttributeBytes s.name next.2.length) := rfl
  rw [hrun]
  cases body info with
  | error e => simp [Except.bind]
  | ok next =>
    obtain ⟨b, rest⟩ := next
    cases rest <;> simp [Except.bind]

/-- A body that is taken exactly is read as that. -/
theorem whole_of_takes {e : Except Malformed α} (h : Takes body info e) :
    s.whole body info = e := by
  have hrun := h []
  rw [List.append_nil] at hrun
  cases e with
  | error e =>
    show (body info).bind _ = _
    rw [hrun]
    rfl
  | ok a => exact whole_eq_ok_iff.2 hrun

/-- A body that is read from all its bytes is read as a whole. -/
theorem whole_of_reads (h : Reads body info a) : s.whole body info = .ok a :=
  whole_of_takes h.takes

/-- Whatever a reader answers of a whole body, it has taken all of it for that. -/
theorem of_whole_eq_ok {p : α → Nat → Prop} (hyields : Yields body p)
    (h : s.whole body info = .ok a) : p a info.length := by
  obtain ⟨-, hp⟩ := hyields info a [] (whole_eq_ok_iff.1 h)
  exact hp

/-- A counted list is read back exactly if sixteen bits hold its length. -/
theorem whole_counted_eq_ok_iff {item : Reader Malformed α} {as bs : List α} {ss : List Bytes}
    (h : List.Forall₂ (fun a s => Reads item s a) as ss) (hne : ∀ s ∈ ss, s ≠ []) :
    s.whole (s.counted item) (Bytes.count as.length ++ ss.flatten) = .ok bs ↔
      as.length < 65536 ∧ bs = as := by
  constructor
  · intro hread
    obtain ⟨n, rest, hn, htimes⟩ := Reader.of_bind_ok (whole_eq_ok_iff.1 hread)
    cases (Reads.u16 s.short _ _).symm.trans hn
    have hcount : (UInt16.ofNat as.length).toNat = as.length % 65536 := UInt16.toNat_ofNat'
    have hle : as.length % 65536 ≤ as.length := Nat.mod_le _ _
    have hfront := Reads.times (List.forall₂_take (as.length % 65536) h)
      (ss.drop (as.length % 65536)).flatten
    rw [← List.flatten_append, List.take_append_drop, List.length_take,
      Nat.min_eq_left hle] at hfront
    rw [hcount, hfront, Except.ok.injEq, Prod.mk.injEq, List.flatten_eq_nil_iff] at htimes
    obtain ⟨rfl, hempty⟩ := htimes
    have hdropped : ss.drop (as.length % 65536) = [] := by
      rw [List.eq_nil_iff_forall_not_mem]
      exact fun s hs => hne s (List.mem_of_mem_drop hs) (hempty s hs)
    have hall : as.length ≤ as.length % 65536 := by
      rw [h.length_eq]
      rw [h.length_eq] at hdropped
      exact List.drop_eq_nil_iff.1 hdropped
    refine ⟨Nat.lt_of_le_of_lt hall (Nat.mod_lt _ (by decide)), ?_⟩
    exact List.take_of_length_le hall
  · rintro ⟨hlength, rfl⟩
    exact whole_of_reads (Reads.counted hlength h)

end Crosswalk.Scope
