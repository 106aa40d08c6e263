import Javadoc.Proofs.Template.Markers
import Javadoc.Proofs.Text.LineBreaks
import Javadoc.Proofs.TypeExpr.Primitive

/-! Values keep the line breaks of a template. A value is entered between two characters that are no part
of a line break, and a return type in words is made of trimmed parts of the type. -/
namespace Javadoc

namespace TypeExpr
open Text

private theorem infix_of_spaced {ts : List Text} {t s : Text} (h : Spaced ts t) (hs : s ∈ ts) :
    s <:+: t := by
  induction h with
  | blank => cases hs
  | @token b s' t ts _ h ih =>
    rcases List.mem_cons.1 hs with rfl | hs
    · exact ⟨b, t, by simp⟩
    · exact (ih hs).trans ⟨b ++ s', [], by simp⟩

private theorem tokens_subset_laterTokens {e : TypeExpr} {es : List TypeExpr} (h : e ∈ es) :
    e.tokens ⊆ laterTokens es := by
  induction es with
  | nil => cases h
  | cons a es ih =>
    rw [laterTokens]
    rcases List.mem_cons.1 h with rfl | h
    · exact fun s hs => List.mem_cons_of_mem _ (List.mem_append_left _ hs)
    · exact fun s hs => List.mem_cons_of_mem _ (List.mem_append_right _ (ih h hs))

private theorem tokens_subset_argTokens {e : TypeExpr} {es : List TypeExpr} (h : e ∈ es) :
    e.tokens ⊆ argTokens es := by
  cases es with
  | nil => cases h
  | cons a es =>
    rw [argTokens]
    rcases List.mem_cons.1 h with rfl | h
    · exact fun s hs => List.mem_cons_of_mem _ (List.mem_append_left _ hs)
    · exact fun s hs =>
        List.mem_cons_of_mem _ (List.mem_append_right _ (tokens_subset_laterTokens h hs))

end TypeExpr

namespace Template
open Text TypeExpr

section Values

variable {P : Text → Prop} (hP : BreakRule P)
include hP

/-- A type in words is made of names that stand in the type, and of words. -/
theorem breakRule_render (linked : Bool) {type : Text} (ht : P type) (e : TypeExpr)
    (hnamed : e.IsNamed) (hin : ∀ s ∈ e.tokens, s <:+: type) : P (e.render linked) := by
  have hword {w : Text} (hw : w.all fun c => c ≠ '\r' ∧ c ≠ '\n') : P w :=
    hP.of_plain fun c hc => of_decide_eq_true (List.all_eq_true.1 hw c hc)
  induction e using args_induction with
  | step name args dims ih =>
    obtain ⟨hname, hargs⟩ := isNamed_mk.1 hnamed
    have hname : P name := by
      rw [← hname.trimmed]
      exact hP.of_trim ht (hin name (by rw [tokens]; exact List.mem_cons_self))
    have hshown : P (if linked && isLinked name then link name else name) := by
      split
      · exact hP.append (hP.append (hword (by decide)) hname) (hword (by decide))
      · exact hname
    have hdims : P (writeDims dims) := hP.of_plain fun c hc => by
      rcases mem_writeDims hc with rfl | rfl <;> decide
    have heach : P (joinWith " and ".toList (renderEach linked args)) := by
      refine hP.of_joinWith (hword (by decide)) fun t hm => ?_
      rw [renderEach_eq_map] at hm
      obtain ⟨a, ha, rfl⟩ := List.mem_map.1 hm
      refine ih a ha (hargs a ha) fun s hs => hin s ?_
      rw [tokens]
      exact List.mem_cons_of_mem _ (List.mem_append_left _ (tokens_subset_argTokens ha hs))
    rw [render]
    split
    · exact hP.append hshown hdims
    · exact hP.append (hP.append (hP.append hshown hdims) (hword (by decide))) heach

private theorem breakRule_describeType (linked : Bool) {type : Text} (h : P type) :
    P (describeType linked type) := by
  by_cases hspells : ∃ e, Spells e type
  · obtain ⟨e, he⟩ := hspells
    rw [describeType_of_spells he]
    exact breakRule_render hP linked h e he.1 fun s hs => infix_of_spaced he.2 hs
  · rw [describeType_of_not_spells (not_exists.1 hspells)]
    exact hP.of_trim h (List.infix_refl type)

theorem breakRule_enter (tag : Tag) {value t : Text} (hv : P value) (h : P t) :
    P (enter tag value t) :=
  hP.of_replaceAll (marker_eq tag) (by decide) (by decide) hv h

theorem breakRule_enterReturnType {type t : Text} (htype : P type) (h : P t) :
    P (enterReturnType type t) := by
  have hlink : linkedReturnType = '\x7b' :: ("@link ".toList ++ Tag.returnType.marker ++ ['\x7d']) := by
    decide
  refine breakRule_enter hP .returnType (breakRule_describeType hP false htype) ?_
  exact hP.of_replaceAll hlink (by decide) (by decide) (breakRule_describeType hP true htype) h

end Values

end Template
end Javadoc
