import Javadoc.Proofs.Template.Leftover
import Mathlib.Data.Bool.AllAny

/-! What filling in a template does to the ends of a comment. A slash that stands directly behind a
tag, or behind an inline tag, could come to stand behind a star when that is replaced or deleted.
Where no slash does, the comment ends where the template ended it. -/
namespace Javadoc
namespace Template
open Text Comment

/-- Whether a text is one documentation comment: it opens and closes one, and does not close it
before its end. -/
def isJavadoc (t : Text) : Bool :=
  docStart.isPrefixOf t && blockClose.isSuffixOf t && !includes blockClose t.dropLast

def tagEnds : Text := ['>', '\x7d']

/-- Whether no slash stands directly behind something that can be deleted. -/
def isFirm (t : Text) : Bool := tagEnds.all fun c => !includes [c, '/'] t

/-- Whether a value can stand anywhere in a comment: it closes none, alone or with a star before
it. -/
def isInert (value : Text) : Bool :=
  (trimStart value).head? != some '/' && !includes blockClose value && isFirm value

def exposing : Text := '*' :: tagEnds

def Clean (t : Text) : Prop := ∀ c ∈ exposing, ¬ [c, '/'] <:+: t

def Guarded (t : Text) : Prop := ∀ c ∈ exposing, ∀ y, c :: '/' :: y <:+ t → c = '*' ∧ y = []

structure Fits (value : Text) : Prop where
  clean : Clean value
  head : value.head? ≠ some '/'

structure Sealed (t : Text) : Prop where
  opens : docStart <+: t
  closes : blockClose <:+ t
  guarded : Guarded t

theorem sealed_of_isJavadoc {t : Text} (h : isJavadoc t) (hf : isFirm t) : Sealed t := by
  simp only [isJavadoc, Bool.and_eq_true, Bool.not_eq_true', List.isPrefixOf_iff_prefix,
    List.isSuffixOf_iff_suffix, includes_eq_false_iff] at h
  refine ⟨h.1.1, h.1.2, fun c hc y hs => ?_⟩
  have hin : [c, '/'] <:+: t := List.IsInfix.trans ⟨[], y, rfl⟩ hs.isInfix
  rcases List.mem_cons.1 hc with rfl | hc
  · refine ⟨rfl, by_contra fun hy => h.2 ?_⟩
    obtain ⟨x, rfl⟩ := hs
    rw [List.dropLast_append_of_ne_nil (by simp)]
    obtain ⟨d, z, rfl⟩ := List.exists_cons_of_ne_nil hy
    exact ⟨x, (d :: z).dropLast, by simp [blockClose]⟩
  · exact absurd hin (includes_eq_false_iff.1 (by simpa using List.all_eq_true.1 hf c hc))

theorem Sealed.isJavadoc {t : Text} (h : Sealed t) : isJavadoc t := by
  simp only [Template.isJavadoc, Bool.and_eq_true, Bool.not_eq_true', List.isPrefixOf_iff_prefix,
    List.isSuffixOf_iff_suffix, includes_eq_false_iff]
  refine ⟨⟨h.opens, h.closes⟩, ?_⟩
  rintro ⟨x, y, hxy⟩
  have hne : t ≠ [] := by
    rintro rfl
    simpa [docStart] using h.opens
  have ht : x ++ '*' :: '/' :: (y ++ [t.getLast hne]) = t := by
    conv_rhs => rw [← List.dropLast_append_getLast hne, ← hxy]
    simp [blockClose]
  simpa using (h.guarded '*' (by simp [exposing]) _ ⟨x, ht⟩).2

theorem Fits.of_isInert {value : Text} (h : isInert value) : Fits value := by
  simp only [isInert, Bool.and_eq_true, bne_iff_ne, Bool.not_eq_true', includes_eq_false_iff] at h
  obtain ⟨⟨hhead, hclose⟩, hf⟩ := h
  refine ⟨fun c hc => ?_, fun hv => hhead ?_⟩
  · rcases List.mem_cons.1 hc with rfl | hc
    · exact hclose
    · exact includes_eq_false_iff.1 (by simpa using List.all_eq_true.1 hf c hc)
  · cases value with
    | nil => cases hv
    | cons c value =>
      obtain rfl : c = '/' := by simpa using hv
      rfl

theorem Guarded.of_suffix {t s : Text} (h : Guarded t) (hs : s <:+ t) : Guarded s :=
  fun c hc y hy => h c hc y (hy.trans hs)

/-- Nothing but the end of a text closes it. -/
theorem Guarded.clean {x y : Text} (h : Guarded (x ++ y)) (hy : y ≠ []) : Clean x := by
  rintro c hc ⟨a, b, rfl⟩
  have := (h c hc (b ++ y) ⟨a, by simp⟩).2
  simp [hy] at this

theorem pair_eq_append {c : Char} {y t z : Text} (ht : t ≠ []) (h : c :: '/' :: y = t ++ z) :
    t = [c] ∧ z = '/' :: y ∨ ∃ t', t = c :: '/' :: t' := by
  match t, ht, h with
  | [d], _, h =>
    simp only [List.cons_append, List.nil_append, List.cons.injEq] at h
    exact .inl ⟨by rw [h.1], h.2.symm⟩
  | d :: e :: t, _, h =>
    simp only [List.cons_append, List.cons.injEq] at h
    exact .inr ⟨t, by rw [h.1, h.2.1]⟩

theorem Clean.not_suffix {t : Text} (h : Clean t) {c : Char} (hc : c ∈ exposing) (y : Text) :
    ¬ c :: '/' :: y <:+ t :=
  fun hs => h c hc (List.IsInfix.trans ⟨[], y, rfl⟩ hs.isInfix)

theorem Clean.guarded {t : Text} (h : Clean t) : Guarded t :=
  fun _ hc y hs => absurd hs (h.not_suffix hc y)

theorem Clean.mono {s t : Text} (h : Clean t) (hs : s <:+: t) : Clean s :=
  fun c hc hin => h c hc (hin.trans hs)

theorem clean_of_not_mem {t : Text} (h : '/' ∉ t) : Clean t :=
  fun _ _ hin => h (hin.subset (by simp))

theorem fits_of_not_mem {value : Text} (h : '/' ∉ value) : Fits value :=
  ⟨clean_of_not_mem h, fun hv => h (List.mem_of_mem_head? hv)⟩

theorem fits_nil : Fits [] := fits_of_not_mem List.not_mem_nil

theorem Clean.append {x y : Text} (hx : Clean x) (hy : Fits y) : Clean (x ++ y) := by
  intro c hc hin
  rcases infix_append_cases hin with hin | hin | ⟨p, q, hpq, hp, hq, -, ⟨z, rfl⟩⟩
  · exact hx c hc hin
  · exact hy.clean c hc hin
  · rcases pair_eq_append hp hpq with ⟨rfl, rfl⟩ | ⟨p, rfl⟩
    · exact absurd rfl hy.head
    · exact hq (by simpa using hpq : p = [] ∧ q = []).2

theorem space_not_mem_pair : ∀ c ∈ exposing, ' ' ∉ [c, '/'] :=
  List.all_iff_forall_prop.1 (by decide)

theorem Clean.append_space {x y : Text} (hx : Clean x) (hy : Clean y) : Clean (x ++ ' ' :: y) := by
  intro c hc hin
  rcases infix_append_cons_of_not_mem (space_not_mem_pair c hc) hin with hin | hin
  · exact hx c hc hin
  · exact hy c hc hin

private theorem Fits.append {x y : Text} (hx : Fits x) (hy : Fits y) : Fits (x ++ y) := by
  refine ⟨hx.clean.append hy, ?_⟩
  cases x with
  | nil => exact hy.head
  | cons c x => exact hx.head

private theorem fits_joinWith {sep : Text} (hs : '/' ∉ sep) {ts : List Text}
    (h : ∀ t ∈ ts, Fits t) : Fits (joinWith sep ts) := by
  induction ts with
  | nil => exact fits_nil
  | cons t ts ih =>
    have ht := h t List.mem_cons_self
    cases ts with
    | nil => exact ht
    | cons u us =>
      exact (ht.append (fits_of_not_mem hs)).append (ih fun v hv => h v (List.mem_cons_of_mem _ hv))

private theorem suffix_of_replaced {b d a a' v : Text} {e : Char}
    (hg : Guarded (b ++ (d ++ e :: a)))
    (he : e ∈ tagEnds ∨ v = [] ∧ ∀ c ∈ b.getLast?, c ∉ exposing) (hv : Fits v)
    (ha : a'.head? = some '/' → a.head? = some '/') {c : Char} (hc : c ∈ exposing) {y : Text}
    (h : c :: '/' :: y <:+ b ++ (v ++ a')) : c :: '/' :: y <:+ a' := by
  have hslash {z : Text} (hz : a' = '/' :: z) (he : e ∈ tagEnds) : False := by
    obtain ⟨w, rfl⟩ : ∃ w, a = '/' :: w := by
      have := ha (by simp [hz])
      cases a with
      | nil => cases this
      | cons x w => exact ⟨w, by simpa using this⟩
    have hstar := (hg e (List.mem_cons_of_mem _ he) w ⟨b ++ d, by simp⟩).1
    rw [hstar] at he
    exact absurd he (by decide)
  rcases suffix_append_cases h with h | ⟨t, hne, ht, hcut⟩
  · rcases suffix_append_cases h with h | ⟨t, hne, ht, hcut⟩
    · exact h
    · -- the slash stands in the value or directly behind it
      rcases pair_eq_append hne hcut with ⟨rfl, hrest⟩ | ⟨t, rfl⟩
      · rcases he with he | ⟨rfl, -⟩
        · exact (hslash hrest he).elim
        · simp at ht
      · exact absurd ht (hv.clean.not_suffix hc t)
  · -- the slash stands before the value or directly at its start
    rcases pair_eq_append hne hcut with ⟨rfl, hrest⟩ | ⟨t, rfl⟩
    · cases v with
      | nil =>
        rcases he with he | ⟨-, hb⟩
        · exact (hslash hrest he).elim
        · obtain ⟨z, rfl⟩ := ht
          exact absurd hc (hb c (by simp))
      | cons w v => exact absurd (by simp [(List.cons.inj hrest).1]) hv.head
    · exact absurd ht ((hg.clean (by simp)).not_suffix hc t)

/-- What a change of a text, or of a line, keeps of the ends of comments: it puts no slash behind
such a character, and both ends stay. -/
structure KeepsEnds (t t' : Text) : Prop where
  slash : ∀ c ∈ exposing, ∀ y, c :: '/' :: y <:+ t' → c :: '/' :: y <:+ t
  opens : docStart <+: t → docStart <+: t'
  closes : blockClose <:+ t → blockClose <:+ t'

theorem KeepsEnds.refl (t : Text) : KeepsEnds t t := ⟨fun _ _ _ h => h, id, id⟩

theorem KeepsEnds.trans {t u v : Text} (h : KeepsEnds t u) (h' : KeepsEnds u v) :
    KeepsEnds t v :=
  ⟨fun c hc y hs => h.slash c hc y (h'.slash c hc y hs), fun ho => h'.opens (h.opens ho),
    fun hs => h'.closes (h.closes hs)⟩

theorem KeepsEnds.guarded {t t' : Text} (h : KeepsEnds t t') (hg : Guarded t) : Guarded t' :=
  fun c hc y hs => hg c hc y (h.slash c hc y hs)

private theorem KeepsEnds.isSealed {t t' : Text} (h : KeepsEnds t t') (hs : Sealed t) : Sealed t' :=
  ⟨h.opens hs.opens, h.closes hs.closes, h.guarded hs.guarded⟩

theorem KeepsEnds.clean {t t' : Text} (h : KeepsEnds t t') (ht : Clean t) : Clean t' := by
  rintro c hc ⟨x, y, rfl⟩
  have hs := h.slash c hc y ⟨x, by simp⟩
  exact ht.not_suffix hc y hs

theorem keepsEnds_replaced {b d a v : Text} {e : Char} (hg : Guarded (b ++ (d ++ e :: a)))
    (he : e ∈ tagEnds ∨ v = [] ∧ ∀ c ∈ b.getLast?, c ∉ exposing) (hv : Fits v)
    (hd : docStart <+: b ++ (d ++ e :: a) → docStart <+: b) (hc : e ∉ blockClose) :
    KeepsEnds (b ++ (d ++ e :: a)) (b ++ (v ++ a)) where
  slash _ hx _ h := (suffix_of_replaced hg he hv id hx h).trans ⟨b ++ d ++ [e], by simp⟩
  opens h := (hd h).trans (List.prefix_append _ _)
  closes h := by
    rw [← List.append_assoc] at h
    exact (suffix_of_suffix_cons h hc).trans ⟨b ++ v, by simp⟩

theorem not_mem_blockClose : ∀ e ∈ tagEnds, e ∉ blockClose :=
  List.all_iff_forall_prop.1 (by decide)

structure Spot (pat : Text) : Prop where
  ends : ∃ p, ∃ e ∈ tagEnds, pat = p ++ [e]
  plain : ∀ c ∈ docStart, c ∉ pat

theorem spot_marker (tag : Tag) : Spot tag.marker where
  ends := ⟨'<' :: tag.name, '>', by decide, rfl⟩
  plain := List.all_iff_forall_prop.1 (by cases tag <;> decide)

private theorem Spot.ne_nil {pat : Text} (h : Spot pat) : pat ≠ [] := by
  obtain ⟨p, e, -, rfl⟩ := h.ends
  simp

theorem Spot.head {pat : Text} (h : Spot pat) : ∀ c ∈ pat.head?, c ∉ docStart :=
  fun c hc hm => h.plain c hm (List.mem_of_mem_head? hc)

private theorem keepsEnds_replaceAll {pat v : Text} (hp : Spot pat) (hv : Fits v) {t : Text}
    (hg : Guarded t) : KeepsEnds t (replaceAll pat v t) := by
  suffices h : KeepsEnds t (replaceAll pat v t) ∧
      ((replaceAll pat v t).head? = some '/' → t.head? = some '/') from h.1
  obtain ⟨p, e, he, rfl⟩ := hp.ends
  induction hn : t.length using Nat.strong_induction_on generalizing t with
  | _ n ih =>
  rw [replaceAll_eq _ _ hp.ne_nil]
  cases hb : breakOn? (p ++ [e]) t with
  | none => exact ⟨.refl t, id⟩
  | some found =>
    obtain ⟨b, a⟩ := found
    have ht : t = b ++ (p ++ e :: a) := by simpa using breakOn?_eq_some hb
    have hga : Guarded a := hg.of_suffix ⟨b ++ p ++ [e], by simp [ht]⟩
    obtain ⟨hrest, hhead⟩ := ih a.length (by simp [← hn, ht]; omega) hga rfl
    subst ht
    refine ⟨⟨fun c hc y hs => ?_, fun ho => ?_, fun hs => ?_⟩, fun h => ?_⟩
    · have hs := hrest.slash c hc y (suffix_of_replaced hg (.inl he) hv hhead hc hs)
      exact hs.trans ⟨b ++ p ++ [e], by simp⟩
    · refine (prefix_of_prefix_append ho fun x hx => hp.head x ?_).trans (List.prefix_append _ _)
      cases p <;> simpa using hx
    · rw [← List.append_assoc] at hs
      exact (hrest.closes (suffix_of_suffix_cons hs (not_mem_blockClose e he))).trans
        ⟨b ++ v, by simp⟩
    · cases b with
      | cons x b => simpa using h
      | nil =>
        cases v with
        | cons x v => exact absurd (by simpa using h) hv.head
        | nil =>
          -- nothing is left of the pattern, behind which no slash stands
          have ha := hhead (by simpa using h)
          cases a with
          | nil => cases ha
          | cons x a =>
            obtain rfl : x = '/' := by simpa using ha
            have hstar := (hg e (List.mem_cons_of_mem _ he) a ⟨p, by simp⟩).1
            rw [hstar] at he
            exact absurd he (by decide)

theorem Sealed.replaceAll {t : Text} (h : Sealed t) {pat value : Text} (hp : Spot pat)
    (hv : Fits value) : Sealed (replaceAll pat value t) :=
  (keepsEnds_replaceAll hp hv h.guarded).isSealed h

theorem Sealed.enter {t : Text} (h : Sealed t) (tag : Tag) {value : Text} (hv : Fits value) :
    Sealed (enter tag value t) := h.replaceAll (spot_marker tag) hv

/-- Decoration holds no end of a comment. -/
theorem not_mem_of_isDecorative {t : Text} (h : isDecorative t) : '/' ∉ t := by
  intro hm
  have := List.all_eq_true.1 h '/' hm
  exact absurd this (by decide)

private theorem not_mem_decorationOf (line : Text) : '/' ∉ decorationOf line := by
  have hblank : '/' ∉ line.takeWhile isBlank := fun hm =>
    absurd (List.all_eq_true.1 List.all_takeWhile '/' hm) (by decide)
  rw [decorationOf]
  split
  · next rest _ =>
    have hgap : '/' ∉ rest.takeWhile isGap := fun hm =>
      absurd (List.all_eq_true.1 List.all_takeWhile '/' hm) (by decide)
    split <;> simp [hblank, hgap]
  · exact hblank

theorem head?_paramEntry (fields? : Option Text) (name : Text) :
    (paramEntry fields? name).head? = some '@' := by
  rw [paramEntry]
  split <;> rfl

private theorem exists_above (t : Text) : ∃ above, t = above ++ lineHead t ∧
    t.take (t.length - (lineHead t).length) = above ∧ ∀ c ∈ above.getLast?, c = '\n' := by
  obtain ⟨above, ha⟩ : ∃ above, above = (t.reverse.dropWhile (· != '\n')).reverse := ⟨_, rfl⟩
  have ht : t = above ++ lineHead t := by
    rw [ha, lineHead, lineTail, ← List.reverse_append, List.takeWhile_append_dropWhile,
      List.reverse_reverse]
  refine ⟨above, ht, ?_, fun c hc => ?_⟩
  · have hlen : t.length - (lineHead t).length = above.length := by
      have := congrArg List.length ht
      rw [List.length_append] at this
      omega
    rw [hlen]
    exact List.prefix_iff_eq_take.1 ⟨_, ht.symm⟩ |>.symm
  · rw [ha, List.getLast?_reverse] at hc
    have := List.head?_dropWhile_not (· != '\n') t.reverse
    rw [Option.mem_def.1 hc] at this
    simpa using this

private theorem Sealed.dropLine {before after : Text}
    (h : Sealed (before ++ (Tag.params.marker ++ after)))
    (hd : isDecorative (lineHead before ++ lineTail after)) : Sealed (dropLine before after) := by
  have hslash := not_mem_of_isDecorative hd
  simp only [List.mem_append, not_or] at hslash
  obtain ⟨above, hbefore, htake, hlast⟩ := exists_above before
  have hafter := List.takeWhile_append_dropWhile (p := (· != '\n')) (l := after)
  rw [← lineTail] at hafter
  have hclose : blockClose <:+ after := by
    have := h.closes
    rw [Tag.marker, List.append_assoc, ← List.append_assoc] at this
    exact suffix_of_suffix_cons this (by decide)
  rw [Template.dropLine, htake]
  cases hrest : after.dropWhile (· != '\n') with
  | nil =>
    rw [hrest, List.append_nil] at hafter
    rw [← hafter] at hclose
    exact absurd (hclose.subset (by decide)) hslash.2
  | cons c below =>
    obtain rfl : c = '\n' := by
      have := List.head?_dropWhile_not (· != '\n') after
      rw [hrest] at this
      simpa using this
    generalize lineHead before = head at *
    generalize lineTail after = tail at *
    have ht : before ++ (Tag.params.marker ++ after) =
        above ++ ((head ++ Tag.params.marker ++ tail) ++ '\n' :: below) := by
      rw [hbefore, ← hafter, hrest]
      simp
    rw [ht] at h
    refine (keepsEnds_replaced (v := []) h.guarded (.inr ⟨rfl, fun c hc => ?_⟩) fits_nil
      (fun ho => ?_) (by decide)).isSealed h
    · rw [hlast c hc]
      decide
    · rcases List.eq_nil_or_concat above with rfl | ⟨front, d, rfl⟩
      · -- the first line opens the comment, and this one holds no slash
        cases head with
        | nil => exact absurd ho (by simp [docStart, Tag.marker])
        | cons x head =>
          change ['/', '*', '*'] <+: x :: _ at ho
          obtain rfl := (List.cons_prefix_cons.1 ho).1
          exact absurd List.mem_cons_self hslash.1
      · obtain rfl : d = '\n' := hlast d (by simp)
        simp only [List.concat_eq_append, List.append_assoc] at ho ⊢
        exact (prefix_of_prefix_append ho (by rintro c ⟨⟩; decide)).trans (List.prefix_append _ _)

/-- Entries in the place of the tag for the parameters, or the deletion of the tag, keep the
ends. -/
theorem Sealed.enterParameters {t : Text} (h : Sealed t) {fields? : Option Text}
    {params : List Parameter}
    (hv : ∀ p ∈ params, Clean (paramEntry fields? p.name)) :
    Sealed (enterParameters fields? params t) := by
  rw [Template.enterParameters]
  split
  · exact h
  · next before after hb =>
    obtain rfl : t = before ++ (('<' :: Tag.params.name) ++ '>' :: after) := by
      simpa [Tag.marker] using breakOn?_eq_some hb
    have hopens (h : docStart <+: before ++ (('<' :: Tag.params.name) ++ '>' :: after)) :
        docStart <+: before :=
      prefix_of_prefix_append h (by rintro c ⟨⟩; decide)
    have hreplaced {value : Text} (hv : Fits value) : Sealed (before ++ (value ++ after)) :=
      (keepsEnds_replaced h.guarded (.inl (by decide)) hv hopens (by decide)).isSealed h
    split
    · split
      · next hd => exact Sealed.dropLine (by simpa [Tag.marker] using h) hd
      · exact hreplaced fits_nil
    · have hsep : ∀ line : Text, '/' ∉ (if line.getLast? == some '\r' then ['\r', '\n'] else ['\n'] :
          Text) ++ decorationOf line := by
        intro line
        have := not_mem_decorationOf line
        split <;> simpa using this
      have hentries : ∀ entry ∈ params.map fun p => paramEntry fields? p.name, Fits entry := by
        intro entry hentry
        obtain ⟨p, hp, rfl⟩ := List.mem_map.1 hentry
        exact ⟨hv p hp, by rw [head?_paramEntry]; decide⟩
      rw [List.append_assoc]
      exact hreplaced (fits_joinWith (hsep _) hentries)

end Template
end Javadoc
