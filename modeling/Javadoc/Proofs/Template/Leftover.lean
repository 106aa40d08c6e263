import Javadoc.Proofs.Template.Markers
import Javadoc.Template.Resolve

/-! What removing leftover tags leaves behind. Removal goes through the tags one after the other,
so it can put a marker together that stood in two pieces around a deleted one, and a directive is
only cut up to the delimiter that closes the comment. A filled in template in which neither can
happen yields a comment without any marker. -/
namespace Javadoc.Template
open Text

/-- Whether the text starts with something that goes away together with a tag: the marker of a tag
that is no directive, or the brace of an inline tag around one. -/
def opensDeleted (t : Text) : Bool :=
  t.head? == some '\x7b' || Tag.all.any fun tag => !tag.isDirective && tag.marker.isPrefixOf t

def cutsMarker (t : Text) : Bool :=
  Tag.all.any fun tag => tag.marker.inits.any fun p =>
    !p.isEmpty && p != tag.marker && p.isPrefixOf t && opensDeleted (t.drop p.length)

/-- Whether the text starts with a closing delimiter, or with the star of one that shows when what
is behind the star is deleted. -/
def opensClose : Text → Bool
  | '*' :: t => t.head? == some '/' || opensDeleted t
  | _ => false

def repeatsBehindClose (tag : Tag) (line : Text) : Bool :=
  line.tails.any fun u => tag.marker.isPrefixOf u &&
    (u.drop tag.marker.length).tails.any fun s => opensClose s && includes tag.marker s

/-- Whether a line loses its tags without a trace: no marker in it is interrupted by another tag,
and no directive stands on both sides of a closing delimiter. -/
def isSeparable (line : Text) : Bool :=
  line.tails.all (fun t => !cutsMarker t) &&
    Tag.all.all fun tag => !tag.isDirective || !repeatsBehindClose tag line

private def Whole (line : Text) : Prop :=
  ∀ (tag : Tag) (x p q y : Text), tag.marker = p ++ q → p ≠ [] → q ≠ [] → line = x ++ (p ++ y) →
    opensDeleted y = false

private def Unrepeated (line : Text) : Prop :=
  ∀ (tag : Tag) (x y s : Text), tag.isDirective → line = x ++ (tag.marker ++ (y ++ s)) →
    opensClose s → ¬ tag.marker <:+: s

private theorem whole_of_isSeparable {line : Text} (h : isSeparable line) : Whole line := by
  intro tag x p q y hm hp hq hl
  by_contra hy
  simp only [isSeparable, Bool.and_eq_true, List.all_eq_true, List.mem_tails] at h
  have hc := h.1 (p ++ y) ⟨x, hl.symm⟩
  rw [Bool.not_eq_true'] at hc
  refine absurd ?_ (Bool.eq_false_iff.1 hc)
  simp only [cutsMarker, List.any_eq_true]
  refine ⟨tag, mem_all tag, p, (List.mem_inits _ _).2 ⟨q, hm.symm⟩, ?_⟩
  have hne : p ≠ tag.marker := by
    intro he
    rw [← he] at hm
    exact hq (by simpa using hm)
  simpa [hp, hne, List.isPrefixOf_iff_prefix] using hy

private theorem unrepeated_of_isSeparable {line : Text} (h : isSeparable line) :
    Unrepeated line := by
  intro tag x y s hd hl hs hin
  simp only [isSeparable, Bool.and_eq_true, List.all_eq_true] at h
  have hr := h.2 tag (mem_all tag)
  simp only [hd, Bool.not_true, Bool.false_or, Bool.not_eq_true'] at hr
  refine absurd ?_ (Bool.eq_false_iff.1 hr)
  simp only [repeatsBehindClose, List.any_eq_true, List.mem_tails, Bool.and_eq_true]
  refine ⟨tag.marker ++ (y ++ s), ⟨x, hl.symm⟩, ?_, s, ⟨y, ?_⟩, hs, includes_iff.2 hin⟩
  · simp [List.isPrefixOf_iff_prefix]
  · rw [List.drop_left]

private theorem opensDeleted_append {y : Text} (h : opensDeleted y) (z : Text) :
    opensDeleted (y ++ z) := by
  simp only [opensDeleted, Bool.or_eq_true, beq_iff_eq, List.any_eq_true, Bool.and_eq_true,
    List.isPrefixOf_iff_prefix] at h ⊢
  rcases h with h | ⟨tag, ht, hd, hp⟩
  · exact .inl (by rw [List.head?_append, h]; rfl)
  · exact .inr ⟨tag, ht, hd, hp.trans (List.prefix_append y z)⟩

private theorem opensClose_append {s : Text} (h : opensClose s) (z : Text) :
    opensClose (s ++ z) := by
  unfold opensClose at h
  split at h
  · next t =>
    simp only [List.cons_append, opensClose, Bool.or_eq_true, beq_iff_eq] at h ⊢
    rcases h with h | h
    · exact .inl (by rw [List.head?_append, h]; rfl)
    · exact .inr (opensDeleted_append h z)
  · cases h

private theorem opensDeleted_cases {y z : Text} (hy : y ≠ []) (h : opensDeleted (y ++ z)) :
    opensDeleted y ∨ ∃ tag q, Tag.marker tag = y ++ q ∧ q ≠ [] ∧ q <+: z := by
  simp only [opensDeleted, Bool.or_eq_true, beq_iff_eq, List.any_eq_true, Bool.and_eq_true,
    List.isPrefixOf_iff_prefix] at h ⊢
  rcases h with h | ⟨tag, ht, hd, hp⟩
  · cases y with
    | nil => exact absurd rfl hy
    | cons c cs => exact .inl (.inl (by simpa using h))
  · rcases List.prefix_or_prefix_of_prefix hp (List.prefix_append y z) with h | ⟨q, hq⟩
    · exact .inl (.inr ⟨tag, ht, hd, h⟩)
    · by_cases hqe : q = []
      · subst hqe
        exact .inl (.inr ⟨tag, ht, hd, by rw [← hq]; simp⟩)
      · refine .inr ⟨tag, q, hq.symm, hqe, ?_⟩
        rw [← hq] at hp
        exact (List.prefix_append_right_inj y).1 hp

private theorem whole_deleted {l u r : Text} (h : Whole (l ++ u)) (hu : opensDeleted u)
    (hr : r <:+ u) : Whole (l ++ r) := by
  have hcut {tag : Tag} {x p q : Text} (hm : tag.marker = p ++ q) (hp : p ≠ []) (hq : q ≠ [])
      (hl : l = x ++ p) : False := by
    have := h tag x p q u hm hp hq (by simp [hl])
    simp [hu] at this
  intro tag x p q y hm hp hq hl
  by_contra hy
  rw [Bool.not_eq_false] at hy
  obtain ⟨d, rfl⟩ := hr
  rw [← List.append_assoc] at hl
  rcases List.append_eq_append_iff.1 hl with ⟨z, hz, rfl⟩ | ⟨l₂, rfl, rfl⟩
  · -- the beginning of the marker ends behind the place of the deletion
    rcases List.append_eq_append_iff.1 hz with ⟨p₁, rfl, rfl⟩ | ⟨x₂, rfl, rfl⟩
    · by_cases hp₁ : p₁ = []
      · subst hp₁
        have := h tag (x ++ d) z q y (by simpa using hm) (by simpa using hp) hq (by simp)
        simp [hy] at this
      · exact hcut (q := z ++ q) (by simpa using hm) hp₁ (by simp [hq]) rfl
    · have := h tag (l ++ d ++ x₂) p q y hm hp hq (by simp)
      simp [hy] at this
  · by_cases hl₂ : l₂ = []
    · subst hl₂
      exact hcut hm hp hq (List.append_nil _)
    · rcases opensDeleted_cases hl₂ hy with hd | ⟨tag', q', hm', hq', -⟩
      · have := h tag x p q (l₂ ++ (d ++ r)) hm hp hq (by simp)
        simp [opensDeleted_append hd] at this
      · exact hcut (x := x ++ p) hm' hl₂ hq' rfl

private theorem infix_deleted {l u r : Text} (h : Whole (l ++ u)) (hu : opensDeleted u)
    {tag : Tag} (hin : tag.marker <:+: l ++ r) :
    tag.marker <:+: l ∨ tag.marker <:+: r := by
  rcases infix_append_cases hin with hin | hin | ⟨p, q, hm, hp, hq, ⟨x, rfl⟩, -⟩
  · exact .inl hin
  · exact .inr hin
  · have := h tag x p q u hm hp hq (by simp)
    simp [hu] at this

private theorem infix_of_deleted {l u r : Text} (h : Whole (l ++ u)) (hu : opensDeleted u)
    (hr : r <:+ u) {tag : Tag} (hin : tag.marker <:+: l ++ r) : tag.marker <:+: l ++ u := by
  rcases infix_deleted h hu hin with hin | hin
  · exact hin.trans (List.prefix_append l u).isInfix
  · exact hin.trans (hr.isInfix.trans (List.suffix_append l u).isInfix)

private theorem opensClose_of_deleted {s u r : Text} (h : Whole (s ++ u)) (hu : opensDeleted u)
    (hs : s ≠ []) (hc : opensClose (s ++ r)) : opensClose (s ++ u) := by
  cases s with
  | nil => exact absurd rfl hs
  | cons c t =>
    by_cases hstar : c = '*'
    · subst hstar
      simp only [List.cons_append, opensClose, Bool.or_eq_true, beq_iff_eq] at hc ⊢
      cases t with
      | nil => exact .inr (by simpa using hu)
      | cons d t =>
        rcases hc with hc | hc
        · exact .inl (by simpa using hc)
        · rcases opensDeleted_cases (List.cons_ne_nil d t) hc with hd | ⟨tag, q, hm, hq, -⟩
          · exact .inr (opensDeleted_append hd u)
          · have := h tag ['*'] (d :: t) q u hm (by simp) hq (by simp)
            simp [hu] at this
    · simp [opensClose, hstar] at hc

private theorem unrepeated_deleted {l u r : Text} (hw : Whole (l ++ u)) (h : Unrepeated (l ++ u))
    (hu : opensDeleted u) (hr : r <:+ u) : Unrepeated (l ++ r) := by
  intro tag x y s hd hl hs hin
  obtain ⟨d, rfl⟩ := hr
  rw [← List.append_assoc] at hl
  rcases List.append_eq_append_iff.1 hl with ⟨z, hz, rfl⟩ | ⟨l₂, rfl, hy⟩
  · rcases List.append_eq_append_iff.1 hz with ⟨p, rfl, hm⟩ | ⟨x₂, rfl, rfl⟩
    · by_cases hp : p = []
      · subst hp
        exact h tag (x ++ d) y s hd (by simp [hm]) hs hin
      · by_cases hzn : z = []
        · subst hzn
          exact h tag x (d ++ y) s hd (by simp [hm]) hs hin
        · have := hw tag x p z _ hm hp hzn (by simp only [List.append_assoc]; rfl)
          simp [hu] at this
    · exact h tag (l ++ d ++ x₂) y s hd (by simp) hs hin
  · rcases List.append_eq_append_iff.1 hy with ⟨s₁, rfl, rfl⟩ | ⟨y₂, rfl, rfl⟩
    · by_cases hs₁ : s₁ = []
      · subst hs₁
        exact h tag x (y ++ d) r hd (by simp) (by simpa using hs) (by simpa using hin)
      · -- the closing delimiter stands before the place of the deletion
        have hws : Whole (s₁ ++ (d ++ r)) := fun tag' x' p q y' hm hp hq he =>
          hw tag' (x ++ tag.marker ++ y ++ x') p q y' hm hp hq (by simp [he])
        exact h tag x y (s₁ ++ (d ++ r)) hd (by simp) (opensClose_of_deleted hws hu hs₁ hs)
          (infix_of_deleted hws hu ⟨d, rfl⟩ hin)
    · exact h tag x (l₂ ++ d ++ y₂) s hd (by simp) hs hin

private theorem whole_of_front {t line : Text} (h : Whole line) (ht : t <+: line) : Whole t := by
  obtain ⟨z, rfl⟩ := ht
  intro tag x p q y hm hp hq hl
  by_contra hy
  rw [Bool.not_eq_false] at hy
  have := h tag x p q (y ++ z) hm hp hq (by simp [hl])
  simp [opensDeleted_append hy] at this

private theorem unrepeated_of_front {t line : Text} (h : Unrepeated line) (ht : t <+: line) :
    Unrepeated t := by
  obtain ⟨z, rfl⟩ := ht
  intro tag x y s hd hl hs hin
  exact h tag x y (s ++ z) hd (by simp [hl]) (opensClose_append hs z)
    (hin.trans (List.prefix_append s z).isInfix)

private structure Keeps (line kept : Text) : Prop where
  whole : Whole kept
  unrepeated : Unrepeated kept
  marker : ∀ tag : Tag, tag.marker <:+: kept → tag.marker <:+: line
  newline : '\n' ∉ line → '\n' ∉ kept

private theorem Keeps.trans {a b c : Text} (h : Keeps a b) (h' : Keeps b c) : Keeps a c :=
  ⟨h'.whole, h'.unrepeated, fun tag hin => h.marker tag (h'.marker tag hin),
    fun hn => h'.newline (h.newline hn)⟩

private theorem Keeps.refl {a : Text} (hw : Whole a) (hu : Unrepeated a) : Keeps a a :=
  ⟨hw, hu, fun _ h => h, fun h => h⟩

private theorem keeps_of_front {t line : Text} (hw : Whole line) (hu : Unrepeated line)
    (ht : t <+: line) : Keeps line t :=
  ⟨whole_of_front hw ht, unrepeated_of_front hu ht, fun _ h => h.trans ht.isInfix,
    fun hn hm => hn (ht.subset hm)⟩

private theorem keeps_deleted {l u r : Text} (hw : Whole (l ++ u)) (h : Unrepeated (l ++ u))
    (hu : opensDeleted u) (hr : r <:+ u) : Keeps (l ++ u) (l ++ r) where
  whole := whole_deleted hw hu hr
  unrepeated := unrepeated_deleted hw h hu hr
  marker _ hin := infix_of_deleted hw hu hr hin
  newline hn hm := hn <| by
    rcases List.mem_append.1 hm with hm | hm
    · exact List.mem_append_left u hm
    · exact List.mem_append_right l (hr.subset hm)

/-- An inline tag that is dropped reaches from its opening before the place to the first closing brace
behind it. No other brace is closed in it, and none is opened behind the place. -/
theorem dropInlineTag_braces (before after : Text) :
    dropInlineTag before after = (before, after) ∨
      ∃ between inside, before = (dropInlineTag before after).1 ++ inlineOpen ++ between ∧
        after = inside ++ '\x7d' :: (dropInlineTag before after).2 ∧
        '\x7d' ∉ between ∧ '\x7b' ∉ inside ∧ '\x7d' ∉ inside := by
  unfold dropInlineTag
  split
  · exact .inl rfl
  · next left between hb =>
    split
    · exact .inl rfl
    · next hbetween =>
      split
      · exact .inl rfl
      · next c right hr =>
        split
        · exact .inl rfl
        · next hinside =>
          refine .inr ⟨between, after.takeWhile (· != '\x7d'), breakOnLast?_eq_some hb, ?_,
            by simpa using hbetween, by simpa using hinside, fun hm => ?_⟩
          · have hc : c = '\x7d' := by
              have := List.head?_dropWhile_not (· != '\x7d') after
              simpa [hr] using this
            conv_lhs => rw [← List.takeWhile_append_dropWhile (p := (· != '\x7d')) (l := after), hr]
            simp [hc]
          · have := List.mem_takeWhile_imp hm
            simp at this

theorem dropInlineTag_cases (before after : Text) :
    dropInlineTag before after = (before, after) ∨
      ∃ between inside, before = (dropInlineTag before after).1 ++ inlineOpen ++ between ∧
        after = inside ++ '\x7d' :: (dropInlineTag before after).2 :=
  (dropInlineTag_braces before after).imp_right fun ⟨between, inside, hb, ha, _⟩ =>
    ⟨between, inside, hb, ha⟩

private theorem deleted_once {tag : Tag} (ht : tag.isDirective = false) {line before after : Text}
    (h : breakOn? tag.marker line = some (before, after)) :
    ∃ l u r, line = l ++ u ∧ opensDeleted u ∧ r <:+ u ∧
      closeGap (dropInlineTag before after).1 (dropInlineTag before after).2 = l ++ r := by
  obtain ⟨u, hl, hu, hr⟩ : ∃ u, line = (dropInlineTag before after).1 ++ u ∧ opensDeleted u ∧
      (dropInlineTag before after).2 <:+ u := by
    have hline := breakOn?_eq_some h
    rcases dropInlineTag_cases before after with he | ⟨between, inside, hb, ha⟩
    · refine ⟨tag.marker ++ after, by simp [he, hline], ?_, ⟨tag.marker, by simp [he]⟩⟩
      have : Tag.all.any fun t => !t.isDirective && t.marker.isPrefixOf (tag.marker ++ after) :=
        List.any_eq_true.2 ⟨tag, mem_all tag, by simp [ht, List.isPrefixOf_iff_prefix]⟩
      simp [opensDeleted, this]
    · refine ⟨inlineOpen ++ between ++ tag.marker ++ after, ?_, by simp [opensDeleted, inlineOpen],
        ⟨inlineOpen ++ between ++ tag.marker ++ inside ++ ['\x7d'], ?_⟩⟩
      · rw [hline]
        conv_lhs => rw [hb]
        simp
      · conv_rhs => rw [ha]
        simp
  unfold closeGap
  split
  · exact ⟨_, u, _, hl, hu, (List.drop_suffix 1 _).trans hr, rfl⟩
  · exact ⟨_, u, _, hl, hu, hr, rfl⟩

private theorem keeps_removeTag {tag : Tag} (ht : tag.isDirective = false) (line : Text)
    (hw : Whole line) (hu : Unrepeated line) :
    Keeps line (removeTag tag line) ∧ ¬ tag.marker <:+: removeTag tag line := by
  fun_induction removeTag tag line with
  | case1 line h => exact ⟨.refl hw hu, breakOn?_eq_none_iff.1 h⟩
  | case2 line before after h around ih =>
    obtain ⟨l, u, r, rfl, ho, hr, he⟩ := deleted_once ht h
    have hk : Keeps (l ++ u) (closeGap around.1 around.2) := he ▸ keeps_deleted hw hu ho hr
    obtain ⟨hk', hno⟩ := ih hk.whole hk.unrepeated
    exact ⟨hk.trans hk', hno⟩

private theorem keeps_dropFromLine {tag : Tag} (ht : tag.isDirective = false) {line kept : Text}
    (hw : Whole line) (hu : Unrepeated line) (h : dropFromLine tag line = some kept) :
    Keeps line kept ∧ ¬ tag.marker <:+: kept := by
  simp only [dropFromLine] at h
  split at h
  · next hi =>
    cases h
    exact ⟨.refl hw hu, includes_eq_false_iff.1 (by simpa using hi)⟩
  · split at h
    · cases h
    · split at h
      · cases h
      · cases h
        obtain ⟨hk, hno⟩ := keeps_removeTag ht line hw hu
        have hp := isPrefix_trimEnd (removeTag tag line)
        exact ⟨hk.trans (keeps_of_front hk.whole hk.unrepeated hp),
          fun hin => hno (hin.trans hp.isInfix)⟩

private structure Joint (w z : Text) : Prop where
  suffix : z <:+ w
  short : w = z ∨ w = ' ' :: z ∨ w = '\r' :: z
  head : ∀ c ∈ w.head?, c = ' ' ∨ c = '*' ∨ c = '\r'

private theorem Joint.not_prefix {w z q : Text} (hw : Joint w z) (tag : Tag)
    (hm : q <:+: tag.marker) (hq : q ≠ []) : ¬ q <+: w := by
  rintro ⟨v, rfl⟩
  cases q with
  | nil => exact hq rfl
  | cons c cs =>
    obtain ⟨h₁, h₂, h₃, -⟩ := not_mem_marker tag
    have hc : c ∈ tag.marker := hm.subset (by simp)
    have := hw.head c (by simp)
    grind

private theorem Joint.suffix_cases {w z s : Text} (hw : Joint w z) (h : s <:+ w) :
    s <:+ z ∨ s = w := by
  rcases hw.short with rfl | rfl | rfl
  · exact .inl h
  all_goals
    rcases List.suffix_cons_iff.1 h with rfl | h
    · exact .inr rfl
    · exact .inl h

private theorem Joint.infix {w z : Text} (hw : Joint w z) {tag : Tag} {k : Text}
    (h : tag.marker <:+: k ++ w) : tag.marker <:+: k ∨ tag.marker <:+: z := by
  rcases infix_append_cases h with h | h | ⟨p, q, hm, -, hq, -, hpre⟩
  · exact .inl h
  · rcases hw.short with rfl | rfl | rfl
    · exact .inr h
    all_goals
      rcases List.infix_cons_iff.1 h with h | h
      · exact absurd h (hw.not_prefix tag (List.infix_refl _) (marker_ne_nil tag))
      · exact .inr h
  · exact absurd hpre (hw.not_prefix tag (hm ▸ (List.suffix_append p q).isInfix) hq)

private theorem Joint.not_opensDeleted {w z : Text} (hw : Joint w z) : opensDeleted w = false := by
  by_contra h
  rw [Bool.not_eq_false] at h
  simp only [opensDeleted, Bool.or_eq_true, beq_iff_eq, List.any_eq_true, Bool.and_eq_true,
    List.isPrefixOf_iff_prefix] at h
  rcases h with h | ⟨tag, -, -, h⟩
  · have := hw.head _ h
    simp at this
  · exact hw.not_prefix tag (List.infix_refl _) (marker_ne_nil tag) h

private theorem Joint.opensDeleted {w z y : Text} (hw : Joint w z)
    (h : opensDeleted (y ++ w)) (v : Text) : opensDeleted (y ++ v) := by
  by_cases hy : y = []
  · subst hy
    have := hw.not_opensDeleted
    simp_all
  · rcases opensDeleted_cases hy h with h | ⟨tag, q, hm, hq, hpre⟩
    · exact opensDeleted_append h v
    · exact absurd hpre (hw.not_prefix tag (hm ▸ (List.suffix_append y q).isInfix) hq)

private theorem whole_cut {k v u w z : Text} (h : Whole (k ++ (v ++ u))) (hz : z <:+ u)
    (hw : Joint w z) : Whole (k ++ w) := by
  intro tag x p q y hm hp hq hl
  by_contra hy
  rw [Bool.not_eq_false] at hy
  obtain ⟨d, rfl⟩ := hz
  rw [← List.append_assoc] at hl
  rcases List.append_eq_append_iff.1 hl with ⟨p₂, hp₂, hwp⟩ | ⟨k₂, rfl, rfl⟩
  · rcases List.append_eq_append_iff.1 hp₂ with ⟨p₁, rfl, rfl⟩ | ⟨x₂, rfl, rfl⟩
    · by_cases hne : p₂ = []
      · have := hw.not_opensDeleted
        simp_all
      · refine hw.not_prefix tag ?_ hne ⟨y, hwp.symm⟩
        exact ⟨p₁, q, by simp [hm]⟩
    · rcases hw.suffix_cases (s := p ++ y) ⟨x₂, by simp [hwp]⟩ with ⟨e, rfl⟩ | he
      · have := h tag (k ++ (v ++ (d ++ e))) p q y hm hp hq (by simp)
        simp [hy] at this
      · exact hw.not_prefix tag (hm ▸ (List.prefix_append p q).isInfix) hp ⟨y, he⟩
  · have := h tag x p q (k₂ ++ (v ++ (d ++ z))) hm hp hq (by simp)
    rw [hw.opensDeleted hy] at this
    cases this

private theorem Joint.opensClose {w z s : Text} (hw : Joint w z) (hs : s ≠ [])
    (hc : opensClose (s ++ w)) (v : Text) : opensClose (s ++ v) := by
  cases s with
  | nil => exact absurd rfl hs
  | cons c t =>
    by_cases hstar : c = '*'
    · subst hstar
      simp only [List.cons_append, Template.opensClose, Bool.or_eq_true, beq_iff_eq] at hc ⊢
      rcases hc with hc | hc
      · cases t with
        | nil =>
          have := hw.head '/' (by simpa using hc)
          simp at this
        | cons d t => exact .inl (by simpa using hc)
      · exact .inr (hw.opensDeleted hc v)
    · simp [Template.opensClose, hstar] at hc

private theorem Joint.close_suffix {w z s : Text} (hw : Joint w z) (hs : s <:+ w)
    (hc : Template.opensClose s) : s <:+ z := by
  rcases hw.suffix_cases hs with hs | rfl
  · exact hs
  · rcases hw.short with rfl | rfl | rfl
    · exact List.suffix_refl _
    all_goals simp [Template.opensClose] at hc

private theorem unrepeated_cut {k v u w z : Text} (h : Unrepeated (k ++ (v ++ u))) (hz : z <:+ u)
    (hw : Joint w z) : Unrepeated (k ++ w) := by
  intro tag x y s hd hl hs hin
  obtain ⟨d, rfl⟩ := hz
  rw [← List.append_assoc] at hl
  rcases List.append_eq_append_iff.1 hl with ⟨m₂, hm₂, hwm⟩ | ⟨k₂, rfl, hy⟩
  · rcases List.append_eq_append_iff.1 hm₂ with ⟨m₁, rfl, hm⟩ | ⟨x₂, rfl, rfl⟩
    · by_cases hne : m₂ = []
      · subst hne
        obtain ⟨e, rfl⟩ := hw.close_suffix (s := s) ⟨y, by simpa using hwm.symm⟩ hs
        exact h tag x (v ++ (d ++ e)) s hd (by simp [hm]) hs hin
      · exact hw.not_prefix tag ⟨m₁, [], by simp [hm]⟩ hne ⟨_, hwm.symm⟩
    · rcases hw.suffix_cases (s := tag.marker ++ (y ++ s)) ⟨x₂, by simp [hwm]⟩ with ⟨e, rfl⟩ | he
      · exact h tag (k ++ (v ++ (d ++ e))) y s hd (by simp) hs hin
      · exact hw.not_prefix tag (List.infix_refl _) (marker_ne_nil tag) ⟨_, he⟩
  · rcases List.append_eq_append_iff.1 hy with ⟨s₁, rfl, rfl⟩ | ⟨y₂, rfl, rfl⟩
    · by_cases hs₁ : s₁ = []
      · subst hs₁
        obtain ⟨e, rfl⟩ := hw.close_suffix (List.suffix_refl _) hs
        refine h tag x (y ++ (v ++ (d ++ e))) w hd (by simp) hs hin
      · refine h tag x y (s₁ ++ (v ++ (d ++ z))) hd (by simp) (hw.opensClose hs₁ hs _) ?_
        rcases hw.infix hin with hin | hin
        · exact hin.trans (List.prefix_append _ _).isInfix
        · exact hin.trans ⟨s₁ ++ (v ++ d), [], by simp⟩
    · obtain ⟨e, rfl⟩ := hw.close_suffix (List.suffix_append y₂ s) hs
      exact h tag x (k₂ ++ (v ++ (d ++ e))) s hd (by simp) hs hin

private theorem exists_joint {before after kept : Text}
    (h : cutDirective before after = some kept) :
    ∃ k w z, kept = k ++ w ∧ k <+: before ∧ Joint w z ∧ z <:+ after ∧
      (z = [] ∨ opensClose z) := by
  obtain ⟨k, w, rfl, hk, hw⟩ := cutDirective_eq_some h
  rcases hw with rfl | rfl | ⟨front, rest, rfl, hw⟩
  · exact ⟨k, [], [], rfl, hk, ⟨List.suffix_refl _, .inl rfl, by simp⟩, List.nil_suffix, .inl rfl⟩
  · exact ⟨k, _, [], rfl, hk, ⟨List.nil_suffix, .inr (.inr rfl), by simp⟩, List.nil_suffix,
      .inl rfl⟩
  · have hclose : opensClose (Comment.blockClose ++ rest) := rfl
    rcases hw with rfl | rfl
    · exact ⟨k, _, _, rfl, hk, ⟨List.suffix_refl _, .inl rfl, by simp [Comment.blockClose]⟩,
        List.suffix_append _ _, .inr hclose⟩
    · exact ⟨k, _, _, rfl, hk, ⟨List.suffix_cons _ _, .inr (.inl rfl), by simp⟩,
        List.suffix_append _ _, .inr hclose⟩

private theorem keeps_cutFromLine {tag : Tag} (ht : tag.isDirective) {line kept : Text}
    (hw : Whole line) (hu : Unrepeated line) (h : cutFromLine tag line = some kept) :
    Keeps line kept ∧ ¬ tag.marker <:+: kept := by
  unfold cutFromLine at h
  split at h
  · next before after hb =>
    obtain ⟨k, w, z, rfl, ⟨v, rfl⟩, hj, hz, hclose⟩ := exists_joint h
    have hline : line = k ++ (v ++ tag.marker ++ after) := by
      rw [breakOn?_eq_some hb]
      simp
    have hz' : z <:+ tag.marker ++ after := hz.trans (List.suffix_append _ _)
    have hline' : line = k ++ (v ++ (tag.marker ++ after)) := by simp [hline]
    rw [hline'] at hw hu
    refine ⟨⟨whole_cut hw hz' hj, unrepeated_cut hu hz' hj, ?_, ?_⟩, ?_⟩
    · intro tag' hin
      rw [hline']
      rcases hj.infix hin with hin | hin
      · exact hin.trans (List.prefix_append _ _).isInfix
      · exact hin.trans (hz'.isInfix.trans ⟨k ++ v, [], by simp⟩)
    · intro hn hm
      rw [hline'] at hn
      rcases List.mem_append.1 hm with hm | hm
      · exact hn (List.mem_append_left _ hm)
      · have : '\n' ∉ z := fun hmz =>
          hn (List.mem_append_right _ (List.mem_append_right _ (hz'.subset hmz)))
        rcases hj.short with rfl | rfl | rfl <;> simp_all
    · intro hin
      rcases hj.infix hin with hin | hin
      · exact not_infix_before hb (marker_ne_nil tag)
          (hin.trans (List.prefix_append k v).isInfix)
      · obtain ⟨d, rfl⟩ := hz
        rcases hclose with rfl | hclose
        · exact marker_ne_nil tag (List.infix_nil.1 hin)
        · exact hu tag (k ++ v) d z ht (by simp) hclose hin
  · next hb =>
    cases h
    exact ⟨.refl hw hu, breakOn?_eq_none_iff.1 hb⟩

private def scrubLine (tag : Tag) (line : Text) : Option Text :=
  if tag.isDirective then cutFromLine tag line else dropFromLine tag line

private theorem keeps_scrubLine {tag : Tag} {line kept : Text} (hw : Whole line)
    (hu : Unrepeated line) (h : scrubLine tag line = some kept) :
    Keeps line kept ∧ ¬ tag.marker <:+: kept := by
  unfold scrubLine at h
  split at h
  · next hd => exact keeps_cutFromLine hd hw hu h
  · next hd => exact keeps_dropFromLine (Bool.eq_false_iff.2 hd) hw hu h

private structure Scrubbed (done : List Tag) (line : Text) : Prop where
  whole : Whole line
  unrepeated : Unrepeated line
  gone : ∀ tag ∈ done, ¬ tag.marker <:+: line

private theorem scrubbed_nil (done : List Tag) : Scrubbed done [] where
  whole := fun tag x p q y hm hp hq hl => by simp_all
  unrepeated := fun tag x y s hd hl => by simp [marker_ne_nil] at hl
  gone := fun tag _ h => marker_ne_nil tag (List.infix_nil.1 h)

private theorem dropTags_step {done : List Tag} {text : Text} (tag : Tag)
    (h : ∀ line ∈ splitLines text, Scrubbed done line) :
    ∀ line ∈ splitLines (if tag.isDirective then dropDirective tag text else dropTag tag text),
      Scrubbed (done ++ [tag]) line := by
  have he : (if tag.isDirective then dropDirective tag text else dropTag tag text) =
      joinLines ((splitLines text).filterMap (scrubLine tag)) := by
    have hs : scrubLine tag =
        if tag.isDirective then cutFromLine tag else dropFromLine tag := by
      funext line
      unfold scrubLine
      split <;> rfl
    rw [hs]
    split <;> rfl
  rw [he]
  by_cases hne : (splitLines text).filterMap (scrubLine tag) = []
  · rw [hne]
    intro line hl
    rw [show joinLines [] = [] from rfl, splitLines_nil, List.mem_singleton] at hl
    exact hl ▸ scrubbed_nil _
  · have hkept : ∀ line ∈ (splitLines text).filterMap (scrubLine tag),
        Scrubbed (done ++ [tag]) line ∧ '\n' ∉ line := by
      intro kept hk
      obtain ⟨line, hl, hs⟩ := List.mem_filterMap.1 hk
      obtain ⟨hw, hu, hg⟩ := h line hl
      obtain ⟨hk, hno⟩ := keeps_scrubLine hw hu hs
      refine ⟨⟨hk.whole, hk.unrepeated, ?_⟩, hk.newline (not_mem_of_mem_splitLines hl)⟩
      intro tag' ht
      rcases List.mem_append.1 ht with ht | ht
      · exact fun hin => hg tag' ht (hk.marker tag' hin)
      · rw [List.mem_singleton.1 ht]
        exact hno
    rw [splitLines_joinLines (fun line hl => (hkept line hl).2) hne]
    exact fun line hl => (hkept line hl).1

private theorem dropTags_run (tags done : List Tag) (text : Text)
    (h : ∀ line ∈ splitLines text, Scrubbed done line) :
    ∀ line ∈ splitLines (tags.foldl (fun text tag =>
      if tag.isDirective then dropDirective tag text else dropTag tag text) text),
      Scrubbed (done ++ tags) line := by
  induction tags generalizing done text with
  | nil => simpa using h
  | cons tag tags ih => simpa using ih (done ++ [tag]) _ (dropTags_step tag h)

/-- A text whose lines lose their tags without a trace holds no marker afterwards. -/
theorem not_includes_dropTags {text : Text} (h : ∀ line ∈ splitLines text, isSeparable line)
    (tag : Tag) : includes tag.marker (dropTags text) = false := by
  rw [includes_eq_false_iff, infix_iff_line (not_mem_marker tag).2.2.2.1 (marker_ne_nil tag)]
  rintro ⟨line, hl, hin⟩
  have hs := dropTags_run Tag.all [] text (fun line hl =>
    ⟨whole_of_isSeparable (h line hl), unrepeated_of_isSeparable (h line hl), by simp⟩) line hl
  exact hs.gone tag (by simp [mem_all]) hin

/-- No comment holds a marker, for any configuration, template and declaration, unless removing
the leftover tags of the filled in template can put one together or stops before a repeated
directive. -/
theorem comment?_unmarked (t : Templates) (template : Text) (target : Target) {text : Text}
    (h : t.comment? template target = some text)
    (hs : ∀ line ∈ splitLines (fill t.fields target template), isSeparable line) (tag : Tag) :
    includes tag.marker text = false := by
  simp only [Templates.comment?, comment?] at h
  split at h
  · cases h
  · rw [← Option.some.inj h]
    exact not_includes_dropTags hs tag

/-- A template with leftovers of three kinds: a value that only methods have, an inline
tag around another one, and a directive before the closing delimiter. -/
theorem comment?_unmarked_leftovers :
    Templates.comment? {}
      "/** Creates a <className>,\n see \x7b@link <instance>\x7d <returnType> <hasP> x, y */".toList
      (.class "A".toList) = some "/** Creates a A,\n see \x7b@link A\x7d */".toList ∧
    includes Tag.returnType.marker "/** Creates a A,\n see \x7b@link A\x7d */".toList = false :=
  have h : Templates.comment? {}
      "/** Creates a <className>,\n see \x7b@link <instance>\x7d <returnType> <hasP> x, y */".toList
      (.class "A".toList) = some "/** Creates a A,\n see \x7b@link A\x7d */".toList := by
    decide +kernel
  ⟨h, comment?_unmarked _ _ _ h (by decide +kernel) .returnType⟩

/-- The marker that the removal of another one puts together stays in the comment. -/
example : Templates.comment? {} "/** <inst<params>ance> */".toList (.class "A".toList) =
    some "/** <instance> */".toList := by decide +kernel

/-- A directive behind the closing delimiter that the same directive is cut up to stays. -/
example : Templates.comment? {} "/** A <hasP> a */ <hasP> b".toList (.class "A".toList) =
    some "/** A */ <hasP> b".toList := by decide +kernel

end Javadoc.Template
