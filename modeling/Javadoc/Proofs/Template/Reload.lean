import Javadoc.Proofs.Template.ConfigText
import Javadoc.Proofs.Template.Store

/-! Whether a configuration can be read again after operations on it. Storing asks for a name that
is not empty and reading for one that is not blank, so a template with a name of blanks can be stored
and makes its configuration invalid; nothing else does. -/
namespace Javadoc

namespace StoreKey

/-- Whether a key is that of a custom template with a blank name. -/
def isBlankName (key : Text) : Bool :=
  match ofText? key with
  | some (.custom name) => (Text.trim name).isEmpty
  | _ => false

private theorem isBlankName_fixed : ∀ key ∈ fixed, isBlankName key = false := by decide

private theorem isBlankName_append {name : Text} (h : name ≠ []) :
    isBlankName (customStart ++ name) = (Text.trim name).isEmpty := by
  have hkey : ofText? (customStart ++ name) = some (.custom name) :=
    ofText?_eq_some_iff.2 (if_neg h)
  simp only [isBlankName, hkey]

end StoreKey

namespace Templates

/-! ## Names that are distinct -/

/-- Among distinct names the only fault is a blank one. -/
theorem customFault?_of_nodup {cs : List CustomTemplate} (h : (cs.map (·.name)).Nodup)
    {seen : List Text} (hseen : ∀ c ∈ cs, c.name ∉ seen) :
    customFault? seen cs =
      if cs.any fun c => (Text.trim c.name).isEmpty then some .emptyName else none := by
  induction cs generalizing seen with
  | nil => rfl
  | cons c cs ih =>
    obtain ⟨hc, hcs⟩ := List.nodup_cons.1 h
    rw [List.forall_mem_cons] at hseen
    have hrest : ∀ d ∈ cs, d.name ∉ c.name :: seen := fun d hd hmem => by
      obtain he | hmem := List.mem_cons.1 hmem
      · exact hc (List.mem_map.2 ⟨d, hd, he⟩)
      · exact hseen.2 d hd hmem
    have hnew : seen.contains c.name = false := by simpa using hseen.1
    rw [customFault?, ih hcs hrest, hnew, List.any_cons]
    cases (Text.trim c.name).isEmpty <;> simp

variable {t : Templates}

private theorem any_isBlankName_keys (ht : t.IsKeyed) :
    t.keys.any StoreKey.isBlankName = t.custom.any fun c => (Text.trim c.name).isEmpty := by
  have hfixed : (StoreKey.fixed.filter fun key => (t.get? key).isSome).any StoreKey.isBlankName =
      false := by
    rw [List.any_eq_false]
    exact fun key hkey => by simp [StoreKey.isBlankName_fixed key (List.mem_filter.1 hkey).1]
  rw [keys_eq, List.any_append, hfixed, Bool.false_or, customKeys, List.any_map]
  refine Bool.eq_iff_iff.2 ?_
  simp only [List.any_eq_true, Function.comp_apply]
  refine exists_congr fun c => and_congr_right fun hc => ?_
  rw [StoreKey.isBlankName_append (ht.named c hc)]

private theorem validate_of_isKeyed (ht : t.IsKeyed) :
    t.validate = if t.keys.any StoreKey.isBlankName then .error (.invalidConfig .emptyName)
      else .ok () := by
  rw [validate, customFault?_of_nodup ht.distinct (by simp), any_isBlankName_keys ht]
  cases t.custom.any fun c => (Text.trim c.name).isEmpty <;> rfl

/-! ## Keys that were stored -/

/-- An operation adds no key but the one that it stores a template under. -/
theorem mem_keys_of_call (ht : t.IsKeyed) {c : StoreCall} {key : Text}
    (h : key ∈ (t.call c).keys) : key ∈ t.keys ∨ ∃ template, c = .put key template := by
  cases c with
  | put other template =>
    by_cases hkey : key = other
    · exact .inr ⟨template, by rw [hkey]⟩
    · refine .inl ?_
      cases hput : t.put other template with
      | error e => rwa [call, hput] at h
      | ok t' =>
        obtain ⟨k, hk, rfl⟩ := exists_of_put_ok other hput
        rw [call, hput, mem_keys_iff (isKeyed_setAt ht hk), get?_setAt_of_ne hk hkey] at h
        exact (mem_keys_iff ht).2 h
  | remove other =>
    rw [keys_remove ht] at h
    exact .inl (List.mem_of_mem_erase h)
  | removeMethodTemplates =>
    rw [call, keys_removeMethodTemplates] at h
    exact .inl (List.mem_filter.1 h).1

private theorem mem_keys_of_after (ht : t.IsKeyed) {calls : List StoreCall} {key : Text}
    (h : key ∈ (t.after calls).keys) :
    key ∈ t.keys ∨ ∃ template, .put key template ∈ calls := by
  induction calls generalizing t with
  | nil => exact .inl h
  | cons c calls ih =>
    obtain h | ⟨template, h⟩ := ih (ht.call c) h
    · exact (mem_keys_of_call ht h).imp_right fun ⟨template, h⟩ =>
        ⟨template, h ▸ List.mem_cons_self⟩
    · exact .inr ⟨template, List.mem_cons_of_mem _ h⟩

/-- After any operations on a valid configuration, blank names are all that can be wrong with it. If
none is stored, it is valid again and its text gives it back. -/
theorem ofConfigText_after (ht : t.validate = .ok ()) (calls : List StoreCall) :
    ((t.after calls).validate =
      if (t.after calls).keys.any StoreKey.isBlankName then .error (.invalidConfig .emptyName)
      else .ok ()) ∧
    ((∀ key template, .put key template ∈ calls → StoreKey.isBlankName key = false) →
      (t.after calls).validate = .ok () ∧
        ofConfigText (t.after calls).toConfigText = .ok (t.after calls)) := by
  have hkeyed := isKeyed_of_validate ht
  have hvalidate := validate_of_isKeyed (hkeyed.after calls)
  refine ⟨hvalidate, fun hcalls => ?_⟩
  have hbefore : t.keys.any StoreKey.isBlankName = false := by
    rw [validate_of_isKeyed hkeyed] at ht
    cases hany : t.keys.any StoreKey.isBlankName with
    | false => rfl
    | true => simp [hany] at ht
  have hafter : (t.after calls).keys.any StoreKey.isBlankName = false := by
    rw [List.any_eq_false] at hbefore ⊢
    intro key hkey
    obtain hkey | ⟨template, hput⟩ := mem_keys_of_after hkeyed hkey
    · exact hbefore key hkey
    · simp [hcalls key template hput]
  have hvalid : (t.after calls).validate = .ok () := by simp [hvalidate, hafter]
  refine ⟨hvalid, ?_⟩
  simp [ofConfigText, ofConfigText?_toConfigText, hvalid]

/-- Operations that keep the standard configuration valid, and the shortest one that does not. -/
theorem ofConfigText_after_standard :
    let calls : List StoreCall := [.put "CUSTOM x".toList "\n\"".toList, .put "CUSTOM".toList [],
      .remove "SETTER".toList, .put "CUSTOM x".toList [], .put "Methods".toList "'".toList]
    let t := Templates.standard.after calls
    Templates.standard.validate = .ok () ∧
      (∀ key template, .put key template ∈ calls → StoreKey.isBlankName key = false) ∧
      t.validate = .ok () ∧ ofConfigText t.toConfigText = .ok t ∧
      (Templates.standard.after [.put "CUSTOM ".toList []]).validate =
        .error (.invalidConfig .emptyName) := by
  intro calls t
  have hvalid : Templates.standard.validate = .ok () := by decide
  have hcalls : ∀ key template, .put key template ∈ calls → StoreKey.isBlankName key = false := by
    intro key template h
    simp only [calls, List.mem_cons, List.not_mem_nil, or_false, StoreCall.put.injEq,
      reduceCtorEq, false_or] at h
    obtain ⟨rfl, -⟩ | ⟨rfl, -⟩ | ⟨rfl, -⟩ | ⟨rfl, -⟩ := h <;> decide
  obtain ⟨hafter, hread⟩ := (ofConfigText_after hvalid calls).2 hcalls
  have hblank := (ofConfigText_after hvalid [.put "CUSTOM ".toList []]).1
  exact ⟨hvalid, hcalls, hafter, hread, hblank.trans (if_pos (by decide))⟩

end Templates
end Javadoc
