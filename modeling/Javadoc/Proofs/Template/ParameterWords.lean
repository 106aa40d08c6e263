import Javadoc.Proofs.Template.Arrangement
import Javadoc.Proofs.Text.Pieces

/-! The directive about parameters. It looks for its words in the whole parameter list, which has
commas of its own in the types. No word holds a comma, so that each one is found in the text of a
single parameter, and the order of parameters and words does not matter. -/
namespace Javadoc
namespace Directive
open Text

/-- Whether a text without blanks lists the word between commas. -/
def Lists (argument word : Text) : Prop := word ≠ [] ∧ IsPiece ',' argument word

private theorem mem_listed_iff {argument word : Text} :
    word ∈ listed argument ↔ Lists argument word := by
  rw [listed, List.mem_filter, mem_splitOnChar_iff, Lists, and_comm]
  simp

/-- Without blanks, only commas stand between the parameters of a list. -/
theorem compact_parameterText (m : Method) : compact m.parameterText =
    joinWith [','] (m.parameters.map fun p => compact p.render) := by
  rw [Method.parameterText]
  induction m.parameters with
  | nil => rfl
  | cons p ps ih =>
    cases ps with
    | nil => rfl
    | cons q qs =>
      have hcomma : compact ", ".toList = [','] := by decide
      simp only [List.map_cons, joinWith] at ih ⊢
      rw [compact_append, compact_append, ih, hcomma]

/-- A word of a list stands in the parameter list exactly if it stands in a parameter. -/
theorem infix_parameterText_iff {argument word : Text} (h : Lists argument word) (m : Method) :
    word <:+: compact m.parameterText ↔ ∃ p ∈ m.parameters, word <:+: compact p.render := by
  rw [compact_parameterText, infix_joinWith_iff h.2.1 h.1]
  simp only [List.mem_map, exists_exists_and_eq_and]

private theorem accepts_hasParams_iff (argument templateName : Text) (m : Method) :
    accepts ⟨.hasParams, argument⟩ templateName m ↔
      (∃ word, Lists (compact argument) word) ∧
        ∀ word, Lists (compact argument) word →
          ∃ p ∈ m.parameters, word <:+: compact p.render := by
  have hne : (listed (compact argument)).isEmpty = false ↔
      ∃ word, Lists (compact argument) word := by
    rw [List.isEmpty_eq_false_iff_exists_mem]
    simp only [mem_listed_iff]
  simp only [accepts, Bool.and_eq_true, Bool.not_eq_true', List.all_eq_true, mem_listed_iff,
    includes_iff, hne]
  refine and_congr_right fun _ => forall_congr' fun word => imp_congr_right fun h => ?_
  exact infix_parameterText_iff h m

/-- More parameters keep a method among those that meet the directive. -/
theorem accepts_hasParams_mono {argument templateName : Text} {m m' : Method}
    (h : m.parameters ⊆ m'.parameters) (ha : accepts ⟨.hasParams, argument⟩ templateName m) :
    accepts ⟨.hasParams, argument⟩ templateName m' := by
  rw [accepts_hasParams_iff] at ha ⊢
  refine ⟨ha.1, fun word hw => ?_⟩
  obtain ⟨p, hp, hin⟩ := ha.2 word hw
  exact ⟨p, h hp, hin⟩

/-- A method meets the directive about parameters exactly if the argument lists a word, and each word
that it lists stands in the text of a single parameter. Neither the order of the parameters matters
nor the order and number of the words, and more parameters do no harm. -/
theorem accepts_hasParams_spec (argument templateName : Text) (m : Method) :
    (accepts ⟨.hasParams, argument⟩ templateName m ↔
      (∃ word, Lists (compact argument) word) ∧
        ∀ word, Lists (compact argument) word →
          ∃ p ∈ m.parameters, word <:+: compact (p.type ++ ' ' :: p.name)) ∧
    (∀ m' : Method, m'.parameters.Perm m.parameters →
      accepts ⟨.hasParams, argument⟩ templateName m' =
        accepts ⟨.hasParams, argument⟩ templateName m) ∧
    (∀ argument' : Text, (∀ word, Lists (compact argument') word ↔ Lists (compact argument) word) →
      accepts ⟨.hasParams, argument'⟩ templateName m =
        accepts ⟨.hasParams, argument⟩ templateName m) ∧
    ∀ m' : Method, m.parameters ⊆ m'.parameters →
      accepts ⟨.hasParams, argument⟩ templateName m →
        accepts ⟨.hasParams, argument⟩ templateName m' := by
  refine ⟨accepts_hasParams_iff argument templateName m, fun m' h => ?_, fun argument' h => ?_,
    fun m' h => accepts_hasParams_mono h⟩
  · exact Bool.eq_iff_iff.2
      ⟨accepts_hasParams_mono h.subset, accepts_hasParams_mono h.symm.subset⟩
  · rw [Bool.eq_iff_iff, accepts_hasParams_iff, accepts_hasParams_iff]
    simp only [h]

/-- Words that are found in a type with a comma of its own, in another order, twice and between other
blanks, and parameters in another order with one more. -/
theorem accepts_hasParams_spec_map :
    let m : Method := ⟨"put".toList, false, [⟨"m".toList, "Map<K, V>".toList⟩,
      ⟨"k".toList, "K".toList⟩], none, none, none, .nothing, 0⟩
    let m' : Method := { m with parameters := m.parameters.reverse }
    let wider : Method := { m with parameters := ⟨"v".toList, "V".toList⟩ :: m.parameters }
    (∃ p ∈ m.parameters, "V>m".toList <:+: compact (p.type ++ ' ' :: p.name)) ∧
      accepts ⟨.hasParams, " K k, V> m".toList⟩ [] m' = true ∧
      accepts ⟨.hasParams, " V>m,K k ,,K k".toList⟩ [] m = true ∧
      accepts ⟨.hasParams, " K k, V> m".toList⟩ [] wider = true ∧
      accepts ⟨.hasParams, " K>".toList⟩ [] wider = false := by
  intro m m' wider
  obtain ⟨hiff, hperm, hsame, hmore⟩ := accepts_hasParams_spec " K k, V> m".toList [] m
  have ha : accepts ⟨.hasParams, " K k, V> m".toList⟩ [] m = true := by decide +kernel
  have hlisted : Lists (compact " K k, V> m".toList) "V>m".toList :=
    mem_listed_iff.1 (by decide +kernel)
  have hwords (word : Text) : Lists (compact " V>m,K k ,,K k".toList) word ↔
      Lists (compact " K k, V> m".toList) word := by
    rw [← mem_listed_iff, ← mem_listed_iff]
    have hleft : listed (compact " V>m,K k ,,K k".toList) =
        ["V>m".toList, "Kk".toList, "Kk".toList] := by decide +kernel
    have hright : listed (compact " K k, V> m".toList) = ["Kk".toList, "V>m".toList] := by
      decide +kernel
    rw [hleft, hright]
    simp [or_comm]
  refine ⟨(hiff.1 ha).2 _ hlisted, (hperm m' (List.reverse_perm _)).trans ha,
    (hsame _ hwords).trans ha, hmore wider (List.subset_cons_self _ _) ha, by decide +kernel⟩

end Directive
end Javadoc
