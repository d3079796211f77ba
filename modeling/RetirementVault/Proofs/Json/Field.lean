import RetirementVault.Json.Field
import RetirementVault.Proofs.Json.RoundTrip

/-!
# Reading the fields of a written record

Every stored record is written as an object with its fields under distinct names and read field by
field. `fields?_ofMembers` says once what that comes to: **each field is found where it was
written**, so a record's own round trip is left with its values only. The values are texts and whole
numbers; what is said of those here is that they can be written and that they come back.
-/

set_option autoImplicit false

namespace RetirementVault
namespace Json

/-! ## Whole numbers -/

theorem wellFormed_ofNat (n : Nat) : (Numeral.ofNat n).WellFormed where
  whole_ne_nil := Text.digits_ne_nil n
  whole_digits := fun _ hc => Text.isDigit_of_mem_digits hc
  leading_zero := Text.digits_of_head_zero n
  fraction_digits := fun c hc => absurd hc (by simp [Numeral.ofNat])

theorem writable_ofNat (n : Nat) : (ofNat n).Writable := by
  rw [ofNat, Writable]
  exact wellFormed_ofNat n

theorem writable_ofText (s : String) : (ofText s).Writable := by
  rw [ofText, Writable]
  rfl

@[simp] theorem string?_ofText (s : String) : (ofText s).string? = some s := rfl

theorem natural?_ofNat (n : Nat) : (ofNat n).natural? = some n := by
  have hvalue : Nat.ofDigitChars 10 (Text.digits n) 0 = n := Nat.ofDigitChars_ten_toDigits
  simp [ofNat, natural?, Numeral.natural?, Numeral.ofNat, hvalue]

/-- A word is read back as that word. -/
@[simp] theorem uint64?_ofNat (a : UInt64) : (ofNat a.toNat).uint64? = some a := by
  have hlt : a.toNat < UInt64.size := a.toNat_lt
  simp only [uint64?, natural?_ofNat, if_pos hlt, UInt64.ofNat_toNat]

@[simp] theorem uint32?_ofNat (a : UInt32) : (ofNat a.toNat).uint32? = some a := by
  have hlt : a.toNat < UInt32.size := a.toNat_lt
  simp only [uint32?, natural?_ofNat, if_pos hlt, UInt32.ofNat_toNat]

/-! ## Records -/

theorem writable_members {ms : List (String × Json)} (h : ∀ m ∈ ms, m.2.Writable) :
    MembersWritable (ms.map fun m => (some m.1, m.2)) := by
  induction ms with
  | nil =>
    rw [List.map_nil, MembersWritable]
    trivial
  | cons m ms ih =>
    rw [List.map_cons, MembersWritable]
    exact ⟨rfl, h m (by simp), ih fun k hk => h k (by simp [hk])⟩

theorem writable_ofMembers {ms : List (String × Json)} (h : ∀ m ∈ ms, m.2.Writable) :
    (ofMembers ms).Writable := by
  rw [ofMembers, Writable]
  exact writable_members h

/-- A name that stands once is found with its value. -/
theorem member?_of_nodup {ms : List (String × Json)} (h : (ms.map (·.1)).Nodup)
    {m : String × Json} (hm : m ∈ ms) :
    member? (ms.map fun k => (some k.1, k.2)) m.1 = some (some m.2) := by
  have hfilter : (ms.map fun k => (some k.1, k.2)).filter (fun k => k.1 = some m.1)
      = [(some m.1, m.2)] := by
    induction ms with
    | nil => exact absurd hm (by simp)
    | cons k ms ih =>
      rw [List.map_cons, List.nodup_cons] at h
      rcases List.mem_cons.mp hm with rfl | hm
      · have hrest : (ms.map fun k => (some k.1, k.2)).filter (fun k => k.1 = some m.1) = [] := by
          rw [List.filter_eq_nil_iff]
          intro x hx
          obtain ⟨k, hk, rfl⟩ := List.mem_map.mp hx
          have hne : k.1 ≠ m.1 := fun e => h.1 (e ▸ List.mem_map_of_mem (f := (·.1)) hk)
          simpa using hne
        simp [hrest]
      · have hne : k.1 ≠ m.1 := fun e => h.1 (e ▸ List.mem_map_of_mem (f := (·.1)) hm)
        simpa [hne] using ih h.2 hm
  rw [member?, hfilter]

theorem mapM_eq_some {α β γ : Type} {f : α → β} {g : α → γ} {read : β → Option γ} {xs : List α}
    (h : ∀ x ∈ xs, read (f x) = some (g x)) : (xs.map f).mapM read = some (xs.map g) := by
  induction xs with
  | nil => rfl
  | cons x xs ih =>
    have hrest := ih fun y hy => h y (by simp [hy])
    simp [h x (by simp), hrest]

/-- **Each field of a written record is found where it was written.** -/
theorem fields?_ofMembers (ms : List (String × Json)) (h : (ms.map (·.1)).Nodup) (least : Nat) :
    (ofMembers ms).fields? (ms.map (·.1)) least = some (ms.map fun m => some m.2) := by
  have hnames : namesReadable (ms.map fun m => (some m.1, m.2)) = true := by
    simp [namesReadable]
  rw [ofMembers, fields?, if_pos hnames]
  exact mapM_eq_some fun m hm => member?_of_nodup h hm

end Json
end RetirementVault
