import Javadoc.Proofs.Template.Ends

/-! What removing tags does to the ends of a comment. A line that opens or closes the comment is
never dropped, and what is cut out of a line puts no slash behind a star. -/
namespace Javadoc
namespace Template
open Text Comment

private theorem keepsEnds_trimEnd {line : Text} (hg : Guarded line) :
    KeepsEnds line (trimEnd line) := by
  obtain ⟨b, hb, hblank⟩ := dropEndWhile_append isBlank line
  rw [← trimEnd] at hb
  have hsolid : ∀ c ∈ docStart ++ blockClose, isBlank c = false :=
    List.all_iff_forall_prop.1 (by decide)
  refine ⟨fun c hc y hs => ?_, fun ho => ?_, fun hs => ?_⟩
  · by_cases hne : b = []
    · rwa [hb, hne, List.append_nil]
    · rw [hb] at hg
      exact absurd hs ((hg.clean hne).not_suffix hc y)
  · rw [hb] at ho
    refine prefix_of_prefix_append ho fun c hc hm => ?_
    have := hsolid c (List.mem_append_left _ hm)
    simp [hblank c (List.mem_of_mem_head? hc)] at this
  · cases b with
    | nil => rwa [hb, List.append_nil] at hs
    | cons c b =>
      rw [hb] at hs
      have hc : c ∉ blockClose := fun hm => by
        have := hsolid c (List.mem_append_right _ hm)
        simp [hblank c List.mem_cons_self] at this
      have hlast := (suffix_of_suffix_cons hs hc).subset (by decide : '/' ∈ blockClose)
      have := hblank '/' (List.mem_cons_of_mem _ hlast)
      exact absurd this (by decide)

/-- Removing one occurrence of a tag takes away a stretch that starts and ends like a tag, or one
blank more where the text before it ends with a blank. -/
theorem removed_once {tag : Tag} {line before after : Text}
    (h : breakOn? tag.marker line = some (before, after)) :
    ∃ b d e a, line = b ++ (d ++ e :: a) ∧
      closeGap (dropInlineTag before after).1 (dropInlineTag before after).2 = b ++ a ∧
      (e ∈ tagEnds ∨ e = ' ' ∧ b.getLast? = some ' ') ∧ (docStart <+: line → docStart <+: b) := by
  obtain ⟨b, d, e, a, hline, hb, ha, he, hd⟩ : ∃ b d e a, line = b ++ (d ++ e :: a) ∧
      (dropInlineTag before after).1 = b ∧ (dropInlineTag before after).2 = a ∧ e ∈ tagEnds ∧
      ∀ c ∈ (d ++ e :: a).head?, c ∉ docStart := by
    have hline := breakOn?_eq_some h
    have hcases := dropInlineTag_cases before after
    generalize dropInlineTag before after = around at hcases ⊢
    rcases hcases with rfl | ⟨between, inside, rfl, rfl⟩
    · refine ⟨before, '<' :: tag.name, '>', after, by simpa [Tag.marker] using hline, rfl, rfl,
        by decide, fun c hc => ?_⟩
      obtain rfl : '<' = c := by simpa using hc
      decide
    · refine ⟨_, inlineOpen ++ between ++ tag.marker ++ inside, '\x7d', _, by simp [hline], rfl, rfl,
        by decide, fun c hc => ?_⟩
      obtain rfl : '\x7b' = c := by simpa [inlineOpen] using hc
      decide
  have hopens (h : docStart <+: line) : docStart <+: b := prefix_of_prefix_append (hline ▸ h) hd
  rw [hb, ha]
  unfold closeGap
  split
  · next hgap =>
    simp only [Bool.and_eq_true, beq_iff_eq] at hgap
    cases a with
    | nil => simp at hgap
    | cons c a =>
      obtain rfl : c = ' ' := by simpa using hgap.2
      exact ⟨b, d ++ [e], ' ', a, by simp [hline], rfl, .inr ⟨rfl, hgap.1⟩, hopens⟩
  · exact ⟨b, d, e, a, hline, rfl, .inl he, hopens⟩

private theorem keepsEnds_removeTag {tag : Tag} {line : Text} (hg : Guarded line) :
    KeepsEnds line (removeTag tag line) := by
  fun_induction removeTag tag line with
  | case1 line => exact .refl line
  | case2 line before after h around ih =>
    obtain ⟨b, d, e, a, rfl, hcut, he, hd⟩ := removed_once h
    have hspace : ' ' ∉ exposing := by decide
    have hk : KeepsEnds (b ++ (d ++ e :: a)) (closeGap around.1 around.2) := by
      rw [hcut, ← List.nil_append a]
      refine keepsEnds_replaced hg (he.imp_right fun h => ⟨rfl, ?_⟩) fits_nil hd ?_
      · rw [h.2]
        rintro c ⟨⟩
        exact hspace
      · rcases he with he | ⟨rfl, -⟩
        · exact not_mem_blockClose _ he
        · decide
    exact hk.trans (ih (hk.guarded hg))

def KeepsLine (f : Text → Option Text) : Prop :=
  ∀ line, Guarded line → (∀ kept, f line = some kept → KeepsEnds line kept) ∧
    (f line = none → ¬ docStart <+: line ∧ ¬ blockClose <:+ line)

private theorem keepsLine_dropFromLine (tag : Tag) : KeepsLine (dropFromLine tag) := by
  intro line hg
  have hk := @keepsEnds_removeTag tag line hg
  refine ⟨fun kept h => ?_, fun h => ?_⟩
  · simp only [dropFromLine] at h
    split at h
    · cases h
      exact .refl line
    · split at h
      · cases h
      · split at h
        · cases h
        · cases h
          exact hk.trans (keepsEnds_trimEnd (hk.guarded hg))
  · simp only [dropFromLine] at h
    split at h
    · cases h
    · split at h
      · next hr =>
        simp only [delimits, Bool.and_eq_true, Bool.not_eq_true', Bool.or_eq_false_iff,
          includes_eq_false_iff] at hr
        exact ⟨fun h => hr.2.1 h.isInfix, fun h => hr.2.2 h.isInfix⟩
      · split at h
        · next hd =>
          have hno := not_mem_of_isDecorative hd
          exact ⟨fun h => hno ((hk.opens h).subset (by decide)),
            fun h => hno ((hk.closes h).subset (by decide))⟩
        · cases h

private theorem suffix_of_front {k w : Text} (hk : Clean k) (hw : w.head? ≠ some '/') {c : Char}
    (hc : c ∈ exposing) {y : Text} (h : c :: '/' :: y <:+ k ++ w) : c :: '/' :: y <:+ w := by
  rcases suffix_append_cases h with h | ⟨t, hne, ht, hcut⟩
  · exact h
  · rcases pair_eq_append hne hcut with ⟨rfl, rfl⟩ | ⟨t, rfl⟩
    · simp at hw
    · exact absurd ht (hk.not_suffix hc t)

private theorem cutDirective_spec {before after : Text} {tag : Tag}
    (hg : Guarded (before ++ (tag.marker ++ after))) :
    (∀ kept, cutDirective before after = some kept →
        KeepsEnds (before ++ (tag.marker ++ after)) kept) ∧
      (cutDirective before after = none →
        ¬ docStart <+: before ++ (tag.marker ++ after) ∧
          ¬ blockClose <:+ before ++ (tag.marker ++ after)) := by
  have hbefore : Clean before := hg.clean (by simp [marker_ne_nil])
  have hfront {k : Text} (hk : k <+: before) : Clean k :=
    fun c hc h => hbefore c hc (h.trans hk.isInfix)
  have hopens (h : docStart <+: before ++ (tag.marker ++ after)) : docStart <+: trimEnd before :=
    (keepsEnds_trimEnd hbefore.guarded).opens
      (prefix_of_prefix_append h fun c hc => (spot_marker tag).head c (by
        simpa [Tag.marker] using hc))
  have hdecorative (hd : isDecorative (trimEnd before)) :
      ¬ docStart <+: before ++ (tag.marker ++ after) :=
    fun h => not_mem_of_isDecorative hd ((hopens h).subset (by decide))
  rw [cutDirective_eq]
  rcases closing_cases after with ⟨hno, hw⟩ | ⟨front, rest, hafter, hw⟩
  · have hclose : ¬ blockClose <:+ before ++ (tag.marker ++ after) := by
      intro h
      have hcut : before ++ (tag.marker ++ after) = (before ++ '<' :: tag.name) ++ '>' :: after := by
        simp [Tag.marker]
      rw [hcut] at h
      exact hno (suffix_of_suffix_cons h (by decide)).isInfix
    by_cases hd : isDecorative (trimEnd before)
    · rw [if_pos hd]
      refine ⟨fun kept h => ?_, fun _ => ⟨hdecorative hd, hclose⟩⟩
      rcases hw with hw | hw <;> simp [hw] at h
    · rw [if_neg hd]
      refine ⟨fun kept h => ?_, fun h => by cases h⟩
      cases h
      refine ⟨fun c hc y hs => ?_, fun h => (hopens h).trans (List.prefix_append _ _),
        fun h => absurd h hclose⟩
      have hs := suffix_of_front (hfront (isPrefix_trimEnd before))
        (by rcases hw with hw | hw <;> rw [hw] <;> decide) hc hs
      have hm : '/' ∈ closing after := hs.subset (by simp)
      rcases hw with hw | hw <;> simp [hw] at hm
  · have hrest : rest = [] :=
      (hg '*' (by simp [exposing]) rest
        ⟨before ++ (tag.marker ++ front), by simp [hafter, blockClose]⟩).2
    have hline : blockClose <:+ before ++ (tag.marker ++ after) :=
      ⟨before ++ (tag.marker ++ front), by simp [hafter, hrest]⟩
    rw [hw, hrest, List.append_nil]
    by_cases hd : isDecorative (trimEnd before)
    · rw [if_pos hd]
      refine ⟨fun kept h => ?_, fun h => by cases h⟩
      cases h
      refine ⟨fun c hc y hs => ?_, fun h => absurd h (hdecorative hd), fun _ =>
        List.suffix_append _ _⟩
      exact (suffix_of_front (hfront (List.takeWhile_prefix _)) (by decide) hc hs).trans hline
    · rw [if_neg hd]
      refine ⟨fun kept h => ?_, fun h => by cases h⟩
      cases h
      refine ⟨fun c hc y hs => ?_, fun h => (hopens h).trans (List.prefix_append _ _), fun _ =>
        ⟨trimEnd before ++ [' '], by simp⟩⟩
      have hs := suffix_of_front (hfront (isPrefix_trimEnd before)) (by decide) hc hs
      rcases List.suffix_cons_iff.1 hs with h | h
      · rw [(List.cons.inj h).1] at hc
        exact absurd hc (by decide)
      · exact h.trans hline

private theorem keepsLine_cutFromLine (tag : Tag) : KeepsLine (cutFromLine tag) := by
  intro line hg
  rw [cutFromLine]
  cases hb : breakOn? tag.marker line with
  | none => exact ⟨fun kept h => by cases h; exact .refl line, fun h => by cases h⟩
  | some found =>
    obtain ⟨before, after⟩ := found
    have hline := breakOn?_eq_some hb
    rw [List.append_assoc] at hline
    subst hline
    exact cutDirective_spec hg

private theorem keepsLine_bodyLine : KeepsLine CustomBody.bodyLine := by
  intro line hg
  rw [CustomBody.bodyLine]
  split
  · exact ⟨fun kept h => by cases h; exact .refl line, fun h => by cases h⟩
  · next hsplit =>
    have hline := splitAtMarkers_eq hsplit
    rw [hline] at hg
    have hspec := cutDirective_spec hg
    rwa [← hline] at hspec

private def ClosedBy : List Text → Prop
  | [] => False
  | [l] => Guarded l ∧ blockClose <:+ l
  | l :: m :: ls => Clean l ∧ ClosedBy (m :: ls)

private theorem guarded_newline_iff {l t : Text} :
    Guarded (l ++ '\n' :: t) ↔ Clean l ∧ Guarded t := by
  refine ⟨fun h => ⟨h.clean (by simp), h.of_suffix ⟨l ++ ['\n'], by simp⟩⟩, fun h c hc y hs => ?_⟩
  rcases List.suffix_cons_iff.1 (suffix_of_front h.1 (by simp) hc hs) with hs | hs
  · rw [(List.cons.inj hs).1] at hc
    exact absurd hc (by decide)
  · exact h.2 c hc y hs

private theorem closedBy_iff (ls : List Text) :
    ClosedBy ls ↔ Guarded (joinLines ls) ∧ blockClose <:+ joinLines ls := by
  induction ls with
  | nil => exact iff_of_false id fun h => absurd h.2 (by decide)
  | cons l ls ih =>
    cases ls with
    | nil => exact Iff.rfl
    | cons m ls =>
      rw [ClosedBy, ih, joinLines_cons_cons, guarded_newline_iff, and_assoc]
      refine and_congr_right fun _ => and_congr_right fun _ => ⟨fun h => ?_, fun h => ?_⟩
      · exact h.trans ⟨l ++ ['\n'], by simp⟩
      · exact suffix_of_suffix_cons h (by decide)

private theorem ClosedBy.guarded_head {l : Text} {ls : List Text} (h : ClosedBy (l :: ls)) :
    Guarded l := by
  cases ls with
  | nil => exact h.1
  | cons m ls => exact h.1.guarded

private theorem ClosedBy.filterMap {f : Text → Option Text} (hf : KeepsLine f) {ls : List Text}
    (h : ClosedBy ls) : ClosedBy (ls.filterMap f) := by
  induction ls with
  | nil => exact h
  | cons l ls ih =>
    obtain ⟨hkept, hnone⟩ := hf l h.guarded_head
    rw [List.filterMap_cons]
    cases ls with
    | nil =>
      cases hl : f l with
      | none => exact absurd h.2 (hnone hl).2
      | some k => exact ⟨(hkept k hl).guarded h.1, (hkept k hl).closes h.2⟩
    | cons m ls =>
      have hrest := ih h.2
      cases hl : f l with
      | none => exact hrest
      | some k =>
        obtain ⟨n, ns, hns⟩ := List.exists_cons_of_ne_nil
          (l := (m :: ls).filterMap f) (fun hnil => by rw [hnil] at hrest; exact hrest)
        rw [hns] at hrest ⊢
        exact ⟨(hkept k hl).clean h.1, hrest⟩

private theorem docStart_joinLines_iff (l : Text) (ls : List Text) :
    docStart <+: joinLines (l :: ls) ↔ docStart <+: l := by
  cases ls with
  | nil => exact Iff.rfl
  | cons m ls =>
    rw [joinLines_cons_cons]
    refine ⟨fun h => prefix_of_prefix_append h ?_, fun h => h.trans (List.prefix_append _ _)⟩
    rintro c ⟨⟩
    decide

private theorem Sealed.filterMap_lines {f : Text → Option Text} (hf : KeepsLine f) {t : Text}
    (h : Sealed t) : Sealed (joinLines ((splitLines t).filterMap f)) := by
  have hclosed : ClosedBy (splitLines t) := by
    rw [closedBy_iff, joinLines_splitLines]
    exact ⟨h.guarded, h.closes⟩
  obtain ⟨hguarded, hcloses⟩ := (closedBy_iff _).1 (hclosed.filterMap hf)
  refine ⟨?_, hcloses, hguarded⟩
  have hopens := h.opens
  rw [← joinLines_splitLines t] at hopens
  generalize splitLines t = ls at hclosed hopens
  cases ls with
  | nil => exact hclosed.elim
  | cons l ls =>
    rw [docStart_joinLines_iff] at hopens
    obtain ⟨hkept, hnone⟩ := hf l hclosed.guarded_head
    rw [List.filterMap_cons]
    cases hl : f l with
    | none => exact absurd hopens (hnone hl).1
    | some k => exact (docStart_joinLines_iff _ _).2 ((hkept k hl).opens hopens)

theorem Sealed.dropTag {t : Text} (h : Sealed t) (tag : Tag) : Sealed (dropTag tag t) :=
  h.filterMap_lines (keepsLine_dropFromLine tag)

theorem Sealed.dropTags {t : Text} (h : Sealed t) : Sealed (dropTags t) := by
  rw [Template.dropTags]
  generalize Tag.all = tags
  induction tags generalizing t with
  | nil => exact h
  | cons tag tags ih =>
    rw [List.foldl_cons]
    refine ih ?_
    split
    · exact h.filterMap_lines (keepsLine_cutFromLine tag)
    · exact h.dropTag tag

theorem Sealed.body {t : Text} (h : Sealed t) : Sealed (CustomBody.ofTemplate t).body :=
  h.filterMap_lines keepsLine_bodyLine

end Template
end Javadoc
