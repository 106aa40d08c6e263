import Javadoc.Proofs.Java.Names
import Javadoc.Proofs.Template.Removal
import Javadoc.Proofs.Template.Types

/-! Generated comments do not break out into code: every comment that a configuration gives for a
declaration is one documentation comment, if the templates and the values copied from the source
cannot put a slash behind a star. -/
namespace Javadoc

namespace Template
open Text Comment

/-- What stands between the ends of a comment. -/
theorem Sealed.inner_cases {t : Text} (h : Sealed t) :
    t = "/**/".toList ∨ ∃ i, t = docStart ++ (i ++ blockClose) := by
  obtain ⟨r, hr⟩ := h.opens
  have hclose := h.closes
  rw [← hr] at hclose
  rcases suffix_append_cases hclose with ⟨i, rfl⟩ | ⟨w, hne, hw, hcut⟩
  · exact .inr ⟨i, hr.symm⟩
  · left
    rcases pair_eq_append (c := '*') (y := []) hne hcut with ⟨rfl, rfl⟩ | ⟨w, rfl⟩
    · exact hr.symm
    · have hin : ['*', '/'] <:+: docStart := List.IsInfix.trans ⟨[], w, rfl⟩ hw.isInfix
      exact absurd hin (by decide)

private theorem Sealed.clean_inner {t : Text} (h : Sealed t) : Clean (Comment.inner t) := by
  rcases h.inner_cases with rfl | ⟨i, rfl⟩
  · have hinner : Comment.inner "/**/".toList = ['/'] := by decide
    rw [hinner]
    intro c hc hin
    simpa using hin.length_le
  · have htrim : trim (docStart ++ (i ++ blockClose)) = docStart ++ (i ++ blockClose) := by
      have := trim_of_solid (c := '/') (d := '/') (t := '*' :: '*' :: (i ++ ['*'])) (by decide)
        (by decide)
      simpa [docStart, blockClose] using this
    have hopen : stripPrefix? docStart (docStart ++ (i ++ blockClose)) = some (i ++ blockClose) :=
      stripPrefix?_eq_some_iff.2 rfl
    have hclose : stripSuffix? blockClose (i ++ blockClose) = some i := by
      rw [stripSuffix?, if_pos (List.isSuffixOf_iff_suffix.2 (List.suffix_append _ _)),
        List.length_append, Nat.add_sub_cancel, List.take_left]
    have hinner : Comment.inner (docStart ++ (i ++ blockClose)) = i := by
      rw [Comment.inner, htrim, hopen]
      simp only [hclose, Option.getD_some]
    rw [hinner]
    have hg := h.guarded
    rw [← List.append_assoc] at hg
    exact (hg.clean (by decide)).mono (List.suffix_append _ _).isInfix

private theorem Sealed.clean_description {t : Text} (h : Sealed t) : Clean (description t) := by
  intro c hc hin
  obtain ⟨p, hp, hin⟩ := exists_line_of_infix_description (space_not_mem_pair c hc) (by simp) hin
  exact h.clean_inner c hc (hin.trans (infix_of_mem_splitLines hp))

private theorem clean_parameterDescription {fields? : Option Text} (hf : ∀ f ∈ fields?, Sealed f)
    {name : Text} (hn : Fits name) : Clean (parameterDescription fields? name) := by
  cases fields? with
  | none => exact fits_nil.clean
  | some fields =>
    exact (((hf fields rfl).enter .subject hn).enter .className hn).dropTags.clean_description

private theorem clean_paramEntry {fields? : Option Text} (hf : ∀ f ∈ fields?, Sealed f)
    {name : Text} (hn : Fits name) : Clean (paramEntry fields? name) := by
  have hlead : Clean ("@param ".toList ++ name ++ [':']) :=
    ((clean_of_not_mem (by decide)).append hn).append (fits_of_not_mem (by decide))
  rw [paramEntry]
  split
  · exact hlead
  · exact hlead.append_space (clean_parameterDescription hf hn)

private theorem Sealed.enterParams {t : Text} (h : Sealed t) {fields? : Option Text}
    (hf : ∀ f ∈ fields?, Sealed f) {params : List Parameter} (hp : ∀ p ∈ params, Fits p.name) :
    Sealed (Template.enterParameters fields? params t) :=
  h.enterParameters fun p hpm => clean_paramEntry hf (hp p hpm)

def Target.Harmless : Target → Prop
  | .class name | .field name => Fits name
  | .constructor m => Fits m.name ∧ ∀ p ∈ m.parameters, Fits p.name
  | .method m container? => (∀ value ∈ subject? m container?, Fits value) ∧
      (∀ type ∈ m.returnType?, isInert type) ∧ ∀ p ∈ m.parameters, Fits p.name

private theorem Sealed.fill {template : Text} (h : Sealed template) {fields? : Option Text}
    (hf : ∀ f ∈ fields?, Sealed f) {target : Target} (ht : target.Harmless) :
    Sealed (fill fields? target template) := by
  cases target with
  | «class» name => exact (h.enter .className ht).enter .subject ht
  | field name => exact (h.enter .className ht).enter .subject ht
  | constructor m => exact (h.enter .className ht.1).enterParams hf ht.2
  | method m container? =>
    obtain ⟨hsubject, htype, hparams⟩ := ht
    rw [Template.fill, fillMethod]
    refine Sealed.enterParams ?_ hf hparams
    cases hs : subject? m container? with
    | some value =>
      have htext := h.enter .subject (hsubject value hs)
      cases hr : m.returnType? with
      | some type => exact htext.enterReturnType (htype type hr)
      | none => exact htext
    | none =>
      have htext := (h.dropTag .subject).dropTag .returnType
      cases hr : m.returnType? with
      | some type => exact htext.enterReturnType (htype type hr)
      | none => exact htext

/-- A template without such slashes, filled in for a target without them, gives one comment. -/
theorem isJavadoc_of_comment? {fields? : Option Text} (hf : ∀ f ∈ fields?, Sealed f)
    {template : Text} (h : Sealed template) {target : Target} (ht : target.Harmless) {text : Text}
    (hc : comment? fields? template target = some text) : isJavadoc text := by
  simp only [comment?] at hc
  split at hc
  · cases hc
  · rw [← Option.some.inj hc]
    exact (h.fill hf ht).dropTags.isJavadoc

end Template

namespace Assignment
open Text

private theorem not_mem_of_isWord {word : Text} (h : ∀ c ∈ word, isWord c) : '/' ∉ word :=
  fun hm => absurd (h '/' hm) (by decide)

private theorem word?_isWord {t word rest : Text} (h : word? t = some (word, rest)) :
    ∀ c ∈ word, isWord c := by
  rw [word?] at h
  split at h
  · next c cs d rest' hw _ =>
    split at h
    · cases h
    · cases h
      rw [← hw]
      exact List.all_eq_true.1 List.all_takeWhile
  · cases h

theorem firstThis?_isWord {inWord : Bool} {t word : Text} (h : firstThis? inWord t = some word) :
    ∀ c ∈ word, isWord c := by
  induction t generalizing inWord with
  | nil => cases h
  | cons c t ih =>
    rw [firstThis?] at h
    split at h
    · next w hw =>
      cases h
      split at hw
      · cases hw
      · rw [thisWord?] at hw
        simp only [Option.bind_eq_bind, Option.bind_eq_some_iff, Option.some.injEq] at hw
        obtain ⟨_, _, _, _, ⟨w', rest⟩, hword, hw⟩ := hw
        exact hw ▸ word?_isWord hword
    · exact ih h

/-- A setter assigns a word, or a field of its type. -/
theorem target?_cases {m : Method} {own : ClassInfo} {name : Text}
    (h : target? m (some own) = some name) :
    (∀ c ∈ name, isWord c) ∨ ∃ f ∈ own.fields, f.name = name := by
  have hfield {name' : Text} {f : Field} (hf : own.findField? name' = some f) : f ∈ own.fields :=
    List.mem_of_find?_eq_some hf
  simp only [target?, Option.bind_eq_bind, Option.bind_some] at h
  split at h
  · next word hword =>
    cases h
    exact .inl (firstThis?_isWord hword)
  · split at h
    · next f hf =>
      cases h
      obtain ⟨word, -, hword⟩ := List.exists_of_findSome?_eq_some hf
      exact .inr ⟨f, hfield hword, rfl⟩
    · obtain ⟨stem, -, h⟩ := Option.bind_eq_some_iff.1 h
      obtain ⟨f, hf, h⟩ := Option.bind_eq_some_iff.1 h
      cases h
      exact .inr ⟨f, hfield hf, rfl⟩

end Assignment

namespace Templates
open Template Java

def texts (t : Templates) : List Text :=
  [t.classes, t.fields, t.constructors, t.roles.hashCode, t.roles.equals, t.roles.clone,
    t.roles.stringForm, t.roles.getter, t.roles.setter].filterMap id ++
    t.custom.map CustomTemplate.template

theorem role?_cases {t : Templates} {role : Role} {template : Text}
    (h : t.role? role = some template) : template ∈ t.texts ∨ template = emptyComment := by
  cases role with
  | constructorLike => exact .inl (by simp [texts, show t.constructors = some template from h])
  | custom => cases h
  | hashCode | equals | clone | stringForm | accessor | mutator =>
    simp only [role?] at h
    split at h
    · next own hown =>
      simp only [RoleTemplates.get?] at hown
      exact .inl (by simp [texts, hown, ← Option.some.inj h])
    · split at h
      · exact .inr (Option.some.inj h).symm
      · cases h

theorem select?_mem {t : Templates} {m : Method} {selected : SelectedTemplate}
    (h : CustomTemplate.select? t.custom m = some selected) :
    ∃ template ∈ t.texts, selected.body = (CustomBody.ofTemplate template).body := by
  obtain ⟨custom, hc, rfl⟩ := Option.map_eq_some_iff.1 h
  exact ⟨custom.template, List.mem_append_right _
    (List.mem_map_of_mem (List.mem_of_find?_eq_some hc)), rfl⟩

private theorem fits_of_isWordIn {source name : Text} (h : IsWordIn name (Token.scan source)) :
    Fits name := by
  obtain ⟨t, ht, hw, rfl⟩ := h
  exact fits_of_not_mem fun hm =>
    absurd (Token.isWordPart_of_mem_scan ht hw '/' hm) (by decide)

/-- What a method comment is about is a name, or an expression that fits. -/
theorem fits_subject? {m : Method} {own : ClassInfo} {value : Text}
    (h : subject? m (some own) = some value) (hf : ∀ f ∈ own.fields, Fits f.name)
    (hr : ∀ value ∈ m.returned?, isInert value) : Fits value := by
  rw [subject?] at h
  split at h
  · next name hname =>
    cases h
    split at hname
    · rcases Assignment.target?_cases hname with hw | ⟨f, hm, rfl⟩
      · exact fits_of_not_mem (Assignment.not_mem_of_isWord hw)
      · exact hf f hm
    · cases hname
  · exact .of_isInert (hr value h)

/-- The comments that a configuration gives for the declarations of a source text are documentation
comments and nothing else. -/
theorem comments_isJavadoc (t : Templates)
    (ht : ∀ template ∈ t.texts, isJavadoc template ∧ isFirm template) {path source : Text}
    {p : Text × ClassInfo}
    (hp : p ∈ (SourceFile.read path source).classes.flatMap ClassDecl.withPaths) :
    (∀ text ∈ t.classComment? p.2, isJavadoc text) ∧
      (∀ f ∈ p.2.fields, ∀ text ∈ t.fieldComment? f, isJavadoc text) ∧
      (∀ m ∈ p.2.constructors, (∀ q ∈ m.parameters, '/' ∉ q.name) →
        ∀ text ∈ t.constructorComment? m, isJavadoc text) ∧
      ∀ m ∈ p.2.methods, (∀ q ∈ m.parameters, '/' ∉ q.name) →
        (∀ value ∈ m.returned?, isInert value) → (∀ type ∈ m.returnType?, isInert type) →
          ∀ text ∈ t.methodComment? m (some p.2), isJavadoc text := by
  have hsealed {template : Text} (h : template ∈ t.texts) : Sealed template :=
    sealed_of_isJavadoc (ht template h).1 (ht template h).2
  have hf : ∀ f ∈ t.fields, Sealed f := fun f h =>
    hsealed (by simp [texts, Option.mem_def.1 h])
  have hnamed := named_of_mem_read hp
  have hparams {m : Method} (h : ∀ q ∈ m.parameters, '/' ∉ q.name) :
      ∀ q ∈ m.parameters, Fits q.name := fun q hq => fits_of_not_mem (h q hq)
  refine ⟨fun text h => ?_, fun f hfm text h => ?_, fun m hm hq text h => ?_,
    fun m hm hq hr htype text h => ?_⟩
  · obtain ⟨template, hc, h⟩ := Option.bind_eq_some_iff.1 (Option.mem_def.1 h)
    have htarget : (Target.class p.2.name).Harmless := fits_of_isWordIn hnamed.name
    exact isJavadoc_of_comment? hf (hsealed (by simp [texts, hc])) htarget h
  · obtain ⟨template, hc, h⟩ := Option.bind_eq_some_iff.1 (Option.mem_def.1 h)
    have htarget : (Target.field f.name).Harmless := fits_of_isWordIn (hnamed.fields f hfm)
    exact isJavadoc_of_comment? hf (hsealed (by simp [texts, hc])) htarget h
  · obtain ⟨template, hc, h⟩ := Option.bind_eq_some_iff.1 (Option.mem_def.1 h)
    have htarget : (Target.constructor m).Harmless :=
      ⟨fits_of_isWordIn (hnamed.constructors m hm), hparams hq⟩
    exact isJavadoc_of_comment? hf (hsealed (by simp [texts, hc])) htarget h
  · have htarget : (Target.method m (some p.2)).Harmless :=
      ⟨fun value hv => fits_subject? hv
        (fun f hfm => fits_of_isWordIn (hnamed.fields f hfm)) hr, htype, hparams hq⟩
    obtain ⟨-, -, h⟩ := Option.bind_eq_some_iff.1 (Option.mem_def.1 h)
    split at h
    · obtain ⟨selected, hs, h⟩ := Option.bind_eq_some_iff.1 h
      obtain ⟨template, hmem, hbody⟩ := select?_mem hs
      rw [hbody] at h
      exact isJavadoc_of_comment? hf (hsealed hmem).body htarget h
    · obtain ⟨template, hrole, h⟩ := Option.bind_eq_some_iff.1 h
      rcases role?_cases hrole with hmem | rfl
      · exact isJavadoc_of_comment? hf (hsealed hmem) htarget h
      · exact isJavadoc_of_comment? hf (sealed_of_isJavadoc (by decide) (by decide)) htarget h

def quotient : Text :=
  Text.joinLines ["class A \x7b int all; int getHalf() \x7b return all".toList,
    "/ 2; \x7d \x7d".toList]

def ofGetters : Templates where
  methods := some emptyComment
  roles := { getter := some "/** Gives \x7b@link #<instance>\x7d. */".toList }

theorem comments_isJavadoc_quotient :
    ∃ p ∈ (SourceFile.read [] quotient).classes.flatMap ClassDecl.withPaths, ∃ m ∈ p.2.methods,
      ∃ text, ofGetters.methodComment? m (some p.2) = some text ∧
        text = "/** Gives \x7b@link #all/2\x7d. */".toList ∧ isJavadoc text := by
  have hread : (((SourceFile.read [] quotient).classes.flatMap ClassDecl.withPaths).map fun p =>
      p.2.methods.map fun m => [m.returned?, m.returnType?, ofGetters.methodComment? m (some p.2)]
        ++ m.parameters.map (some ·.name)) =
      [[[some "all/2".toList, some "int".toList,
        some "/** Gives \x7b@link #all/2\x7d. */".toList]]] := by
    decide +kernel
  obtain ⟨p, hps, hp⟩ := List.map_eq_singleton_iff.1 hread
  obtain ⟨m, hms, hm⟩ := List.map_eq_singleton_iff.1 hp
  simp only [List.cons_append, List.nil_append, List.cons.injEq, List.map_eq_nil_iff] at hm
  obtain ⟨hreturned, htype, hcomment, hparams⟩ := hm
  have hpm : p ∈ (SourceFile.read [] quotient).classes.flatMap ClassDecl.withPaths := by simp [hps]
  have hmm : m ∈ p.2.methods := by simp [hms]
  refine ⟨p, hpm, m, hmm, _, hcomment, rfl, ?_⟩
  refine (comments_isJavadoc ofGetters (by decide +kernel) hpm).2.2.2 m hmm ?_ ?_ ?_ _ hcomment
  · simp [hparams]
  · rw [hreturned]
    rintro value ⟨⟩
    decide +kernel
  · rw [htype]
    rintro type ⟨⟩
    decide +kernel

end Templates
end Javadoc
