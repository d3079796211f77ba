import RetirementVault.Proofs.Json.Field

/-!
# Stored forms

A kind of value that is stored has a tree and a reader of trees, and the two belong together: what
is written can be written, and it is read back. `Codec` keeps them in one place, so that what holds
of the text is shown once for every kind (`Codec.ofBytes?_text`) and a list of values has a stored
form as soon as its values have one (`Codec.list`).
-/

set_option autoImplicit false

namespace RetirementVault.Json

/-- A stored form: how a value becomes a tree and how it is read from one. -/
structure Codec (α : Type) where
  toJson : α → Json
  ofJson? : Json → Option α
  writable : ∀ a, (toJson a).Writable
  ofJson?_toJson : ∀ a, ofJson? (toJson a) = some a

theorem writable_items {α : Type} {write : α → Json} (h : ∀ a, (write a).Writable) (as : List α) :
    ItemsWritable (as.map write) := by
  induction as with
  | nil =>
    rw [List.map_nil, ItemsWritable]
    trivial
  | cons a as ih =>
    rw [List.map_cons, ItemsWritable]
    exact ⟨h a, ih⟩

namespace Codec

variable {α : Type} (c : Codec α)

def text (layout : Layout) (a : α) : String :=
  (c.toJson a).text layout

def ofBytes? (bytes : List UInt8) : Option α :=
  (Json.ofBytes? bytes).bind c.ofJson?

/-- **A value is read back from its own text**, in either layout. -/
theorem ofBytes?_text (layout : Layout) (a : α) :
    c.ofBytes? (Text.Utf8.encode (c.text layout a)) = some a := by
  rw [ofBytes?, text, Json.ofBytes?_text layout (c.writable a), Option.bind_some,
    c.ofJson?_toJson]

/-- The stored form of a list: an array of its values. -/
def list : Codec (List α) where
  toJson as := .arr (as.map c.toJson)
  ofJson? := list? c.ofJson?
  writable as := by
    rw [Writable]
    exact writable_items c.writable as
  ofJson?_toJson as := by
    have hread : (as.map c.toJson).mapM c.ofJson? = some (as.map id) :=
      mapM_eq_some fun a _ => c.ofJson?_toJson a
    rw [list?, hread, List.map_id]

end Codec
end RetirementVault.Json
