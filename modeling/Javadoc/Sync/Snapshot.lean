import Javadoc.Comment.Markup
import Javadoc.Declaration.Lookup
import Javadoc.OrderedMap

/-! Snapshots of the descriptions of fields, and the changes between two of them. -/
namespace Javadoc

/-- A field of a type in a tree of nested types. -/
structure FieldKey where
  /-- The dotted path of the type that declares the field. -/
  container : Text
  field : Text
  deriving DecidableEq, Repr

/-- Keys are ordered by the path of the type, then by the name of the field. -/
instance : Ord FieldKey := ⟨compareLex (compareOn FieldKey.container) (compareOn FieldKey.field)⟩

instance : Std.TransOrd FieldKey :=
  inferInstanceAs (Std.TransCmp (compareLex (compareOn FieldKey.container) (compareOn FieldKey.field)))

instance : Std.LawfulEqOrd FieldKey where
  eq_of_compare {k l} h := by
    obtain ⟨hc, hf⟩ := Ordering.then_eq_eq.1 h
    cases k
    cases l
    simp only [FieldKey.mk.injEq]
    exact ⟨Std.LawfulEqCmp.compare_eq_iff_eq.1 hc, Std.LawfulEqCmp.compare_eq_iff_eq.1 hf⟩

/-- A field whose description has changed. -/
structure FieldChange where
  container : Text
  field : Text
  old : Text
  new : Text
  deriving DecidableEq, Repr

abbrev Snapshot := OrderedMap FieldKey Text

namespace Snapshot

def describe (f : Field) : Text :=
  match f.comment.doc? with
  | some doc => Comment.description doc.text
  | none => []

def fieldsOf (c : ClassDecl) : List (FieldKey × Field) :=
  c.withPaths.flatMap fun (path, own) => own.fields.map fun f => (⟨path, f.name⟩, f)

/-- Records the description of every field of a type and of the types nested in it. Of fields with
one key the last counts. -/
def ofClass (c : ClassDecl) : Snapshot :=
  OrderedMap.ofList ((fieldsOf c).map fun (key, f) => (key, describe f))

/-- The fields that both snapshots record with different descriptions, in the order of keys. -/
def changes (old new : Snapshot) : List FieldChange :=
  new.entries.filterMap fun (key, description) =>
    match old.get? key with
    | some before =>
      if before = description then none
      else some ⟨key.container, key.field, before, description⟩
    | none => none

end Snapshot
end Javadoc
