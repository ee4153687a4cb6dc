import Crosswalk.Proofs.ClassTree.Patching
import Crosswalk.Proofs.Provider.Resources
import Crosswalk.Proofs.Provider.Supertypes

/-!
# Patches of classes that are served

A class is patched just before it is written, and never again. So whatever a provider has been asked
for, a class that it answers is the one that it has renamed at some time, with its patches and
nothing else (`Provider.patches_change_access`).
-/

namespace Crosswalk

open Provider

variable {σ ρ : Type} [ModSource σ] [Renamer ρ]

namespace Event

/-- A class that has become ready was shown to the renamer at some time, and is kept as it was
served then. -/
theorem exists_showing (events : List (Event σ)) {p : Provider σ ρ} {name : ClassName}
    {contents : Bytes} (hfresh : name ∉ p.classes)
    (h : (afterAll events p).classes[name]? = some contents) :
    ∃ earlier c, earlier <+: events ∧ (afterAll earlier p).showing? name = some c ∧
      encode ((afterAll earlier p).served c) = .ok contents := by
  induction events generalizing p with
  | nil =>
    rw [afterAll, Std.HashMap.getElem?_eq_none hfresh] at h
    cases h
  | cons event rest ih =>
    by_cases hready : name ∈ (event.after p).classes
    · -- This is the event that makes the class ready, and what is kept then stays.
      refine ⟨[], ?_⟩
      have hkept := Std.HashMap.getElem?_eq_some_getElem hready
      have hlater := (remembers_afterAll rest (event.after p)).classes name _ hkept
      rw [← afterAll, h, Option.some.injEq] at hlater
      cases event with
      | asked request =>
        obtain ⟨c, hshowing, hencode⟩ :=
          (request.keeps p).made name contents hfresh (hlater ▸ hkept)
        exact ⟨c, List.nil_prefix, hshowing, hencode⟩
      | changed source files => exact absurd hready hfresh
    · obtain ⟨earlier, c, hearlier, hmade⟩ := ih hready h
      exact ⟨event :: earlier, c, (List.prefix_cons_inj event).2 hearlier, hmade⟩

end Event

namespace Provider

/-- A class with its new names, before it is patched. -/
def renamed (p : Provider σ ρ) (c : ClassTree) : ClassTree :=
  c.rename (Renamer.current (Renamer.learn p.renamer c))

omit [ModSource σ] in

/-- A class is served with its new names, and patched. -/
theorem served_eq (p : Provider σ ρ) (c : ClassTree) :
    p.served c = (p.renamed c).widen p.settings := rfl

/-- A class that is answered was shown to the renamer at some time, and is what it was served as
then. -/
theorem exists_showing_of_answer (events : List (Event σ)) {p : Provider σ ρ} {name : ClassName}
    {contents : Bytes} (hfresh : name ∉ p.classes)
    (h : ((classBytes name).run (Event.afterAll events p)).1 = .ok (some contents)) :
    ∃ earlier c, earlier <+: events ∧ (Event.afterAll earlier p).showing? name = some c ∧
      encode ((Event.afterAll earlier p).served c) = .ok contents := by
  have hlooks := looks name (Event.afterAll events p)
  rw [h] at hlooks
  cases hlooks with
  | idle hshowing haside hready hfault =>
    exact Event.exists_showing events hfresh (hready contents rfl)
  | ready hshowing hencode haside => exact ⟨events, _, List.prefix_rfl, hshowing, hencode⟩

/-- A class with its patches has other flags for the visibility of the methods that are exposed, and
nothing else is changed. This is so before it is written, when its bytes are read, and when it is
answered as a tree, whatever has happened between the time it was renamed and then. -/
theorem patches_change_access :
    (∀ (s : Settings) (c : ClassTree),
      c.Patched s (c.widen s) ∧ (c.widen s).constants = c.constants) ∧
    (∀ (s : Settings) (c : ClassTree) (out : Bytes), c.InRange → c.AttributesCounted →
      encode (c.widen s) = .ok out → ∃ after, decode out = .ok after ∧ c.Patched s after) ∧
    ∀ (settings : Settings) (source : σ) (r : ρ) (files : FileSystem) (log : Array Record)
      (events : List (Event σ)) (name : ClassName) (contents : Bytes),
      let p := start settings source r files log
      let q := Event.afterAll events p
      ((classBytes name).run q).1 = .ok (some contents) →
        ∃ earlier c, earlier <+: events ∧
          let first := Event.afterAll earlier p
          first.showing? name = some c ∧ ((first.renamed c).Fits → ∃ after,
            decode contents = .ok after ∧ ((classTree name).run q).1 = .ok (some after) ∧
            (first.renamed c).Patched settings after) := by
  refine ⟨fun s c => ⟨ClassTree.patched_of_extends ⟨rfl, List.prefix_rfl⟩, ?_⟩,
    fun s c out h hcount => ClassTree.exists_patched (h.regular hcount) h.fits, ?_⟩
  · rw [ClassTree.widen_eq_map]
  · intro settings source r files log events name contents p q hanswer
    obtain ⟨earlier, c, hearlier, hshowing, hencode⟩ :=
      exists_showing_of_answer events (by simp [p, start]) hanswer
    refine ⟨earlier, c, hearlier, hshowing, fun hfits => ?_⟩
    have hsettings : (Event.afterAll earlier p).settings = settings :=
      (Event.remembers_afterAll earlier p).settings
    obtain ⟨raw, hraw⟩ := exists_decode_of_showing? hshowing
    rw [served_eq, hsettings] at hencode
    obtain ⟨after, hdecode, hpatched⟩ :=
      ClassTree.exists_patched ((ClassTree.regular_of_decode hraw).rename _) hfits hencode
    refine ⟨after, hdecode, ?_, hpatched⟩
    rw [run_classTree_of_ok (Prod.ext hanswer rfl), reading, hdecode]

/-- A provider of the mixin that gives it no other names. -/
def mixinProvider : Provider MemorySource (Option NameTable) :=
  start ClassTree.mixinSettings ⟨[("A.class", ClassTree.mixinBytes 2)]⟩ none .empty #[]

/-- The mixin is shown when it is asked for. -/
theorem showing?_mixin : mixinProvider.showing? (.normalize "A") = some (.mixin 2) := by
  have hpath : (ClassName.normalize "A").filePath = "A.class" := by decide
  rw [showing?, if_neg (by simp [mixinProvider, start])]
  exact MemorySource.class?_of_lookup (by rw [hpath]; rfl) ClassTree.decode_mixin

theorem renamed_mixin : mixinProvider.renamed (.mixin 2) = .mixin 2 :=
  ClassTree.rename_mixin

/-- One of the two methods becomes public. -/
theorem patches_change_access_mixin :
    let c := ClassTree.mixin 2
    let s := ClassTree.mixinSettings
    let name := ClassName.normalize "A"
    c.InRange ∧ c.AttributesCounted ∧ c.widenedCount s = 1 ∧ ∃ out after,
      encode (c.widen s) = .ok out ∧ decode out = .ok after ∧ c.Patched s after ∧
      ((classBytes name).run mixinProvider).1 = .ok (some out) ∧ (mixinProvider.renamed c).Fits ∧
      ((classTree name).run mixinProvider).1 = .ok (some after) ∧
      (mixinProvider.renamed c).Patched s after := by
  intro c s name
  have hcount := (ClassTree.regular_of_decode ClassTree.decode_mixin).attributesCounted
  obtain ⟨out, hout⟩ := ClassTree.exists_encode_mixin
  rw [← ClassTree.widen_mixin] at hout
  obtain ⟨-, hwritten, hserved⟩ := @patches_change_access MemorySource (Option NameTable) _ _
  obtain ⟨after, hdecode, hpatched⟩ := hwritten s c out ClassTree.inRange_mixin hcount hout
  have hanswer : ((classBytes name).run mixinProvider).1 = .ok (some out) := by
    rw [answer_of_showing? showing?_mixin, served_eq, renamed_mixin]
    show ((encode (c.widen s)).map some).mapError (ServeFault.overflow name) = _
    rw [hout]
    rfl
  have hfits : (mixinProvider.renamed c).Fits := by
    rw [renamed_mixin]
    exact ClassTree.inRange_mixin.fits
  obtain ⟨earlier, c', hearlier, hshowing, hrest⟩ :=
    hserved s ⟨[("A.class", ClassTree.mixinBytes 2)]⟩ none .empty #[] [] name out hanswer
  obtain rfl := List.prefix_nil.1 hearlier
  obtain rfl : ClassTree.mixin 2 = c' := Option.some.inj (showing?_mixin.symm.trans hshowing)
  obtain ⟨after', hdecode', htree, hpatched'⟩ := hrest hfits
  obtain rfl := Except.ok.inj (hdecode.symm.trans hdecode')
  exact ⟨ClassTree.inRange_mixin, hcount, by cbv, out, after, hout, hdecode, hpatched, hanswer,
    hfits, htree, hpatched'⟩

end Provider

end Crosswalk
