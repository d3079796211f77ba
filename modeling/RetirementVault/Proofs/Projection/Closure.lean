import RetirementVault.Proofs.Json.Codec
import RetirementVault.Proofs.Json.Single
import RetirementVault.Proofs.Projection.Shift

/-!
# A shifted curve as input again

A series is written by the same fields it is read by, so one expects that what a shift writes can be
shifted once more. The ages see to it themselves. The amounts do not: a number too large for a
32-bit value is read as an infinity, an infinity is written as null, and null is no amount. That is
the only way it fails. `isSome_ofJson?_toJson` says that a written series is read just when its
amounts are finite, and the shift makes no infinity of its own.
-/

set_option autoImplicit false

namespace RetirementVault.Projection

open Binary

namespace Sample

theorem writable_toJson (s : Sample) : s.toJson.Writable := by
  refine Json.writable_ofMembers fun m hm => ?_
  simp only [List.mem_cons, List.not_mem_nil, or_false] at hm
  rcases hm with rfl | rfl
  · exact Json.writable_ofNat _
  · exact Json.writable_ofSingle _

/-- A written sample is read back with its age, if its amount is read back at all. -/
theorem ofJson?_toJson (s : Sample) :
    ofJson? s.toJson = (Json.ofSingle s.btc).single?.map fun btc => { age := s.age, btc } := by
  have hfields := Json.fields?_ofMembers
    [("age", .ofNat s.age.toNat), ("btc", .ofSingle s.btc)] (by simp) 2
  simp only [List.map_cons, List.map_nil] at hfields
  rw [ofJson?, toJson, hfields]
  cases hbtc : (Json.ofSingle s.btc).single? with
  | none => simp [hbtc]
  | some btc => simp [hbtc]

end Sample

namespace Series

def ofBytes? (bytes : List UInt8) : Option Series :=
  (Json.ofBytes? bytes).bind ofJson?

def Finite (s : Series) : Prop :=
  ∀ p ∈ s, p.btc.isFinite = true

instance (s : Series) : Decidable s.Finite :=
  inferInstanceAs (Decidable (∀ p ∈ s, _))

theorem writable_toJson (s : Series) : s.toJson.Writable := by
  rw [toJson, Json.Writable]
  exact Json.writable_items Sample.writable_toJson s

theorem shiftText?_eq (years : UInt32) (bytes : List UInt8) :
    shiftText? years bytes = (ofBytes? bytes).map fun s => (s.shift years).toJson.text .pretty :=
  rfl

theorem ofJson?_toJson_cons (p : Sample) (s : Series) :
    ofJson? (toJson (p :: s)) = (Sample.ofJson? p.toJson).bind fun first =>
      (ofJson? s.toJson).map fun rest => first :: rest := by
  show (p.toJson :: s.map Sample.toJson).mapM Sample.ofJson? = _
  rw [List.mapM_cons]
  cases Sample.ofJson? p.toJson with
  | none => rfl
  | some first =>
    show ((s.map Sample.toJson).mapM Sample.ofJson?).bind _ = Option.map _ (ofJson? s.toJson)
    show _ = Option.map _ ((s.map Sample.toJson).mapM Sample.ofJson?)
    cases (s.map Sample.toJson).mapM Sample.ofJson? <;> rfl

/-- **A written series is read just when its amounts are finite.** -/
theorem isSome_ofJson?_toJson (s : Series) : (ofJson? s.toJson).isSome = true ↔ s.Finite := by
  induction s with
  | nil => simp [Finite, toJson, ofJson?, Json.list?]
  | cons p s ih =>
    have hfirst : (Sample.ofJson? p.toJson).isSome = p.btc.isFinite := by
      rw [Sample.ofJson?_toJson, Option.isSome_map, Json.isSome_single?_ofSingle]
    have hcons : (ofJson? (toJson (p :: s))).isSome
        = (p.btc.isFinite && (ofJson? (toJson s)).isSome) := by
      rw [ofJson?_toJson_cons, ← hfirst]
      cases Sample.ofJson? p.toJson with
      | none => rfl
      | some first => simp
    rw [hcons, Bool.and_eq_true, ih]
    simp [Finite]

/-- Whatever becomes of the amounts, the ages are those written. -/
theorem ages_of_ofJson?_toJson {s r : Series} (h : ofJson? s.toJson = some r) :
    r.map Sample.age = s.map Sample.age := by
  induction s generalizing r with
  | nil =>
    have hr : r = [] := by simpa [toJson, ofJson?, Json.list?] using h.symm
    rw [hr]
  | cons p s ih =>
    rw [ofJson?_toJson_cons, Option.bind_eq_some_iff] at h
    obtain ⟨first, hfirst, h⟩ := h
    rw [Option.map_eq_some_iff] at h
    obtain ⟨rest, hrest, rfl⟩ := h
    rw [Sample.ofJson?_toJson, Option.map_eq_some_iff] at hfirst
    obtain ⟨btc, -, rfl⟩ := hfirst
    rw [List.map_cons, List.map_cons, ih hrest]

/-- The text of a series is read, blanks behind it or not, as the tree it was written from. -/
theorem ofBytes?_text (s : Series) {blanks : String}
    (hblanks : ∀ c ∈ blanks.toList, Json.isGap c = true) :
    ofBytes? (Text.Utf8.encode (s.toJson.text .pretty ++ blanks)) = ofJson? s.toJson := by
  rw [ofBytes?, Json.ofBytes?_text_append .pretty s.writable_toJson hblanks, Option.bind_some]

/-- A text as input is a series, with blanks behind it or not: it can be shifted by any years just
when the amounts of the series are finite, and where it is read it has its points at their ages. -/
def IsInputOf (text : String) (s : Series) : Prop :=
  ∀ blanks : String, (∀ c ∈ blanks.toList, Json.isGap c = true) →
    (∀ again : UInt32, (shiftText? again (Text.Utf8.encode (text ++ blanks))).isSome = true ↔
      s.Finite) ∧
    ∀ r, ofBytes? (Text.Utf8.encode (text ++ blanks)) = some r →
      r.length = s.length ∧ r.map Sample.age = s.map Sample.age

theorem isInputOf_text (s : Series) : IsInputOf (s.toJson.text .pretty) s := by
  intro blanks hblanks
  have hback := ofBytes?_text s hblanks
  refine ⟨fun again => ?_, fun r hr => ?_⟩
  · rw [shiftText?_eq, hback, Option.isSome_map]
    exact isSome_ofJson?_toJson s
  · rw [hback] at hr
    have hages := ages_of_ofJson?_toJson hr
    refine ⟨?_, hages⟩
    rw [← List.length_map Sample.age, hages, List.length_map]

/-- **What a shift prints is the shifted curve as input again, as long as its amounts are finite**,
and they are if those of the input were: only a number beyond the 32-bit range keeps an output from
being input. -/
theorem shifted_again_iff_finite {years : UInt32} {bytes : List UInt8} {text : String}
    (h : shiftText? years bytes = some text) :
    ∃ s, ofBytes? bytes = some s ∧ IsInputOf text (s.shift years) ∧
      (s.Finite → (s.shift years).Finite) := by
  rw [shiftText?_eq, Option.map_eq_some_iff] at h
  obtain ⟨s, hread, rfl⟩ := h
  exact ⟨s, hread, isInputOf_text (s.shift years), fun hs => isFinite_shift hs years⟩

/-- Two samples that meet at the first age, of which the larger stays. -/
theorem shifted_again_iff_finite_at_meeting_samples :
    let bytes := Text.Utf8.encode "[\x7b\"age\":30,\"btc\":1.5\x7d,\x7b\"age\":32,\"btc\":2\x7d]"
    let text := "[\n  \x7b\n    \"age\": 30,\n    \"btc\": 2.16\n  \x7d\n]"
    shiftText? 4 bytes = some text ∧ ∃ s, ofBytes? bytes = some s ∧
      IsInputOf text (s.shift 4) ∧ (s.Finite → (s.shift 4).Finite) := by
  intro bytes text
  have hshift : shiftText? 4 bytes = some text := by decide +kernel
  exact ⟨hshift, shifted_again_iff_finite hshift⟩

/-- Not every output is input again: an amount beyond the 32-bit range is written as null. -/
theorem not_every_output_is_input :
    ¬ ∀ (years : UInt32) (bytes : List UInt8) (text : String),
      shiftText? years bytes = some text → (ofBytes? (Text.Utf8.encode text)).isSome = true := by
  intro hall
  have hnull : shiftText? 0 (Text.Utf8.encode "[\x7b\"age\":30,\"btc\":1e39\x7d]")
      = some "[\n  \x7b\n    \"age\": 30,\n    \"btc\": null\n  \x7d\n]" := by
    decide +kernel
  exact absurd (hall _ _ _ hnull) (by decide +kernel)

end Series
end RetirementVault.Projection
