import Javadoc.TypeExpr
import Javadoc.Proofs.Text.Trim
import Mathlib.Data.List.Permutation

/-! The spellings of a type expression. The grammar is told by the tokens of an expression, with
blanks anywhere around them: a name, arguments in angle brackets with commas between them, and pairs
of brackets. Reading accepts the spellings of expressions whose names are names, and nothing else,
and gives back the expression that was spelled. -/
namespace Javadoc.TypeExpr
open Text

structure IsName (name : Text) : Prop where
  ne_nil : name ≠ []
  trimmed : trim name = name
  undelimited : ∀ c ∈ ['<', '>', ',', '['], c ∉ name

instance (name : Text) : Decidable (IsName name) :=
  decidable_of_iff (name ≠ [] ∧ trim name = name ∧
      ['<', '>', ',', '['].all fun c => decide (c ∉ name))
    ⟨fun ⟨h₁, h₂, h₃⟩ => ⟨h₁, h₂, fun c hc => of_decide_eq_true (List.all_eq_true.1 h₃ c hc)⟩,
      fun ⟨h₁, h₂, h₃⟩ => ⟨h₁, h₂, List.all_eq_true.2 fun c hc => decide_eq_true (h₃ c hc)⟩⟩

def dimTokens : Nat → List Text
  | 0 => []
  | n + 1 => ['['] :: [']'] :: dimTokens n

mutual

/-- The tokens of a type expression. -/
def tokens : TypeExpr → List Text
  | mk name args dims => name :: (argTokens args ++ dimTokens dims)

def argTokens : List TypeExpr → List Text
  | [] => []
  | e :: es => ['<'] :: (tokens e ++ laterTokens es)

def laterTokens : List TypeExpr → List Text
  | [] => [['>']]
  | e :: es => [','] :: (tokens e ++ laterTokens es)

end

mutual

def names : TypeExpr → List Text
  | mk name args _ => name :: namesOf args

def namesOf : List TypeExpr → List Text
  | [] => []
  | e :: es => names e ++ namesOf es

end

/-- Whether all names of a type expression are names. -/
def IsNamed (e : TypeExpr) : Prop := ∀ name ∈ e.names, IsName name

instance (e : TypeExpr) : Decidable e.IsNamed := inferInstanceAs (Decidable (∀ name ∈ e.names, _))

/-- Whether a text consists of the given tokens, with blanks around them. -/
inductive Spaced : List Text → Text → Prop
  | blank {b : Text} : isBlankText b → Spaced [] b
  | token {b s t : Text} {ts : List Text} :
      isBlankText b → Spaced ts t → Spaced (s :: ts) (b ++ (s ++ t))

/-- The spellings of a type expression. -/
def Spells (e : TypeExpr) (t : Text) : Prop := e.IsNamed ∧ Spaced e.tokens t

/-- The type expression as a text without needless blanks. -/
def written (e : TypeExpr) : Text := e.tokens.flatten

/-- What holds of an expression if it holds of its arguments holds of all expressions. -/
@[elab_as_elim]
theorem args_induction {P : TypeExpr → Prop}
    (step : ∀ name args dims, (∀ e ∈ args, P e) → P (mk name args dims)) (e : TypeExpr) : P e :=
  @TypeExpr.rec P (fun es => ∀ e ∈ es, P e) step (by simp)
    (fun _ _ he hes => List.forall_mem_cons.2 ⟨he, hes⟩) e

@[simp] theorem isNamed_mk {name : Text} {args : List TypeExpr} {dims : Nat} :
    IsNamed (mk name args dims) ↔ IsName name ∧ ∀ e ∈ args, e.IsNamed := by
  have hargs : (∀ n ∈ namesOf args, IsName n) ↔ ∀ e ∈ args, e.IsNamed := by
    induction args with
    | nil => simp [namesOf]
    | cons e es ih => rw [namesOf, List.forall_mem_append, ih, List.forall_mem_cons, IsNamed]
  rw [IsNamed, names, List.forall_mem_cons, hargs]

section Spaced

private theorem Spaced.blank_append {b t : Text} {ts : List Text} (hb : isBlankText b)
    (h : Spaced ts t) :
    Spaced ts (b ++ t) := by
  have happend {u : Text} (hu : isBlankText u) : isBlankText (b ++ u) := by
    rw [isBlankText, List.all_append, Bool.and_eq_true]
    exact ⟨hb, hu⟩
  cases h with
  | blank hu => exact .blank (happend hu)
  | token hu h => simpa using Spaced.token (happend hu) h

private theorem spaced_flatten (ts : List Text) : Spaced ts ts.flatten := by
  induction ts with
  | nil => exact .blank rfl
  | cons s ts ih => exact .token (b := []) rfl ih

theorem not_isBlank_of_isDelimiter {c : Char} (h : isDelimiter c) : isBlank c = false := by
  simp only [isDelimiter, Bool.or_eq_true, beq_iff_eq] at h
  rcases h with ((rfl | rfl) | rfl) | rfl <;> rfl

private theorem eat?_eq_some_iff {c : Char} {t r : Text} :
    eat? c t = some r ↔ trimStart t = c :: r := by
  unfold eat?
  split
  · next d rest hd =>
    rw [hd]
    split
    · next h => simp [h]
    · next h => simp [h]
  · next hd => simp [hd]

private theorem spaced_of_trimStart {t : Text} {ts : List Text} (h : Spaced ts (trimStart t)) :
    Spaced ts t := by
  have hb : isBlankText (t.takeWhile isBlank) := List.all_takeWhile
  simpa [trimStart] using h.blank_append hb

private theorem trimStart_of_spaced {c : Char} (hc : isBlank c = false) {t : Text} {ts : List Text}
    (h : Spaced ([c] :: ts) t) : ∃ r, trimStart t = c :: r ∧ Spaced ts r := by
  cases h with
  | @token b _ r _ hb h =>
    refine ⟨r, ?_, h⟩
    rw [trimStart, List.dropWhile_append_of_pos (isBlankText_iff.1 hb)]
    simp [hc]

/-- A symbol is eaten where it comes next among the tokens. -/
theorem eat?_of_spaced {c : Char} (hc : isBlank c = false) {t : Text} {ts : List Text}
    (h : Spaced ([c] :: ts) t) : ∃ r, eat? c t = some r ∧ Spaced ts r := by
  obtain ⟨r, hr, h⟩ := trimStart_of_spaced hc h
  exact ⟨r, eat?_eq_some_iff.2 hr, h⟩

private theorem spaced_of_eat? {c : Char} {t r : Text} {ts : List Text} (he : eat? c t = some r)
    (h : Spaced ts r) : Spaced ([c] :: ts) t := by
  refine spaced_of_trimStart ?_
  rw [eat?_eq_some_iff.1 he]
  exact Spaced.token (b := []) rfl h

theorem eat?_suffix {c : Char} {t r : Text} (h : eat? c t = some r) : r <:+ t := by
  refine List.IsSuffix.trans ⟨[c], ?_⟩ (List.dropWhile_suffix isBlank)
  exact (eat?_eq_some_iff.1 h).symm

def StartsWith (symbols : List Char) (ts : List Text) : Prop :=
  ∀ s ∈ ts.head?, ∃ c ∈ symbols, s = [c]

private theorem startsWith_cons {symbols : List Char} {c : Char} (hc : c ∈ symbols)
    (ts : List Text) :
    StartsWith symbols ([c] :: ts) := by
  rintro s hs
  obtain rfl := Option.some.inj hs
  exact ⟨c, hc, rfl⟩

private theorem StartsWith.mono {symbols more : List Char} {ts : List Text}
    (h : StartsWith symbols ts)
    (hsub : symbols ⊆ more) : StartsWith more ts := fun s hs =>
  let ⟨c, hc, hsc⟩ := h s hs
  ⟨c, hsub hc, hsc⟩

/-- No other symbol than the next one is eaten. -/
theorem eat?_eq_none_of_spaced (symbols : List Char) (hs : symbols.all fun d => !isBlank d)
    {c : Char} (hc : c ∉ symbols) {t : Text} {ts : List Text} (h : Spaced ts t)
    (hts : StartsWith symbols ts) : eat? c t = none := by
  cases ts with
  | nil =>
    cases h with
    | blank hb =>
      rw [eat?, trimStart, List.dropWhile_eq_nil_iff.2 (isBlankText_iff.1 hb)]
  | cons s ts =>
    obtain ⟨d, hd, rfl⟩ := hts s rfl
    have hblank : isBlank d = false := by simpa using List.all_eq_true.1 hs d hd
    obtain ⟨r, hr, -⟩ := trimStart_of_spaced hblank h
    have hne : d ≠ c := fun heq => hc (heq ▸ hd)
    rw [eat?, hr]
    exact if_neg hne

end Spaced

section Names

private theorem isDelimiter_iff {c : Char} : isDelimiter c ↔ c ∈ ['<', '>', ',', '['] := by
  simp [isDelimiter, or_assoc]

theorem IsName.isDelimiter_eq_false {name : Text} (h : IsName name) {c : Char} (hc : c ∈ name) :
    isDelimiter c = false :=
  Bool.eq_false_iff.2 fun hd => h.undelimited c (isDelimiter_iff.1 hd) hc

/-- The tokens after a name: blanks, and then one of the characters that end it. -/
theorem delimited_of_spaced {t : Text} {ts : List Text} (h : Spaced ts t)
    (hts : StartsWith ['<', '>', ',', '['] ts) :
    ∃ b u, t = b ++ u ∧ isBlankText b ∧ Spaced ts u ∧ ∀ c ∈ u.head?, isDelimiter c := by
  cases h with
  | blank hb => exact ⟨t, [], by simp, hb, .blank rfl, by simp⟩
  | @token b s u ts hb h =>
    obtain ⟨c, hc, rfl⟩ := hts s rfl
    refine ⟨b, [c] ++ u, rfl, hb, Spaced.token (b := []) rfl h, ?_⟩
    simpa using isDelimiter_iff.2 hc

/-- Trimming keeps the first letter. -/
theorem head?_trim (t : Text) (h : trim t ≠ []) : (trim t).head? = (trimStart t).head? := by
  obtain ⟨z, hz⟩ := isPrefix_trimEnd (trimStart t)
  rw [← hz]
  obtain ⟨c, u, hcu⟩ := List.exists_cons_of_ne_nil h
  rw [trim] at hcu ⊢
  simp [hcu]

theorem IsName.head?_not_blank {name : Text} (h : IsName name) :
    ∃ c cs, name = c :: cs ∧ isBlank c = false := by
  have hfirst := head?_trim name (by rw [h.trimmed]; exact h.ne_nil)
  have hplain := List.head?_dropWhile_not isBlank name
  obtain ⟨c, cs, rfl⟩ := List.exists_cons_of_ne_nil h.ne_nil
  rw [← trimStart, ← hfirst, h.trimmed] at hplain
  exact ⟨c, cs, rfl, by simpa using hplain⟩

/-- A name is read up to the blanks before the character that ends it. -/
theorem readName_append {name a b u : Text} (hn : IsName name) (ha : isBlankText a)
    (hb : isBlankText b) (hu : ∀ c ∈ u.head?, isDelimiter c) :
    readName (a ++ (name ++ (b ++ u))) = (name, u) := by
  have hplain : ∀ c ∈ name ++ b, (!isDelimiter c) = true := by
    intro c hc
    rw [Bool.not_eq_true']
    rcases List.mem_append.1 hc with hc | hc
    · exact hn.isDelimiter_eq_false hc
    · have hblank := isBlankText_iff.1 hb c hc
      exact Bool.eq_false_iff.2 fun hd => by simp [not_isBlank_of_isDelimiter hd] at hblank
  have hstart : trimStart (a ++ (name ++ (b ++ u))) = (name ++ b) ++ u := by
    obtain ⟨c, cs, rfl, hc⟩ := hn.head?_not_blank
    rw [trimStart, List.dropWhile_append_of_pos (isBlankText_iff.1 ha)]
    simp [hc]
  have hcut := span_append hplain (r := u) fun c hc => by simp [hu c hc]
  rw [readName, hstart, hcut.1, hcut.2, trim_append_right (isBlankText_iff.1 hb), hn.trimmed]

/-- A name is read up to the token behind it. -/
theorem readName_of_spaced {name t : Text} {ts : List Text} (hn : IsName name)
    (h : Spaced (name :: ts) t) (hts : StartsWith ['<', '>', ',', '['] ts) :
    (readName t).1 = name ∧ Spaced ts (readName t).2 := by
  cases h with
  | token ha h =>
    obtain ⟨b, u, rfl, hb, hu, hhead⟩ := delimited_of_spaced h hts
    rw [readName_append hn ha hb hhead]
    exact ⟨rfl, hu⟩

private theorem isName_readName {t : Text} (h : (readName t).1 ≠ []) : IsName (readName t).1 := by
  refine ⟨h, trim_trim _, fun c hc hmem => ?_⟩
  obtain ⟨a, b, ht, -, -⟩ := trim_spec ((trimStart t).takeWhile fun c => !isDelimiter c)
  have hmem : c ∈ (trimStart t).takeWhile fun c => !isDelimiter c := by
    rw [ht]
    exact List.mem_append_right _ (List.mem_append_left _ hmem)
  have hplain := List.all_eq_true.1 List.all_takeWhile c hmem
  simp [isDelimiter_iff.2 hc] at hplain

private theorem spaced_of_readName {t : Text} {ts : List Text} (h : Spaced ts (readName t).2) :
    Spaced ((readName t).1 :: ts) t := by
  obtain ⟨a, b, ht, ha, hb⟩ := trim_spec ((trimStart t).takeWhile fun c => !isDelimiter c)
  have hcut : trimStart t = a ++ ((readName t).1 ++ (b ++ (readName t).2)) := by
    have hboth := List.takeWhile_append_dropWhile (p := fun c => !isDelimiter c) (l := trimStart t)
    rw [ht] at hboth
    simpa [readName] using hboth.symm
  refine spaced_of_trimStart ?_
  rw [hcut]
  exact .token (isBlankText_iff.2 ha) (h.blank_append (isBlankText_iff.2 hb))

theorem readName_suffix (t : Text) : (readName t).2 <:+ t :=
  (List.dropWhile_suffix _).trans (List.dropWhile_suffix _)

theorem head?_readName (t : Text) (h : (readName t).1 ≠ []) :
    (readName t).1.head? = (trimStart t).head? := by
  simp only [readName] at h ⊢
  rw [head?_trim _ h]
  cases ht : trimStart t with
  | nil => rfl
  | cons c u =>
    have hc : isBlank c = false := by
      have := List.head?_dropWhile_not isBlank t
      rw [← trimStart, ht] at this
      simpa using this
    by_cases hd : isDelimiter c
    · rw [ht, List.takeWhile_cons_of_neg (by simp [hd])] at h
      exact absurd rfl h
    · simp [hd, hc, trimStart]

end Names

section Dims

theorem readDims_suffix {t r : Text} {n : Nat} (h : readDims t = some (n, r)) : r <:+ t := by
  fun_induction readDims t generalizing n with
  | case1 t _ =>
    cases h
    exact List.suffix_refl _
  | case2 => cases h
  | case3 t inside hopen rest hclose ih =>
    obtain ⟨⟨k, last⟩, hlast, he⟩ := Option.map_eq_some_iff.1 h
    simp only [Prod.mk.injEq] at he
    obtain ⟨-, rfl⟩ := he
    exact (ih hlast).trans ((eat?_suffix hclose).trans (eat?_suffix hopen))

private theorem spaced_of_readDims {t r : Text} {n : Nat} {ts : List Text}
    (h : readDims t = some (n, r))
    (hr : Spaced ts r) : Spaced (dimTokens n ++ ts) t := by
  fun_induction readDims t generalizing n with
  | case1 t _ =>
    cases h
    exact hr
  | case2 => cases h
  | case3 t inside hopen rest hclose ih =>
    obtain ⟨⟨k, last⟩, hlast, he⟩ := Option.map_eq_some_iff.1 h
    simp only [Prod.mk.injEq] at he
    obtain ⟨rfl, rfl⟩ := he
    exact spaced_of_eat? hopen (spaced_of_eat? hclose (ih hlast))

/-- Dimensions are read up to a token that goes on after a type expression. -/
theorem readDims_of_spaced {n : Nat} {t : Text} {ts : List Text}
    (h : Spaced (dimTokens n ++ ts) t) (hts : StartsWith ['>', ','] ts) :
    ∃ r, readDims t = some (n, r) ∧ Spaced ts r := by
  induction n generalizing t with
  | zero =>
    have hopen : eat? '[' t = none := eat?_eq_none_of_spaced _ (by decide) (by decide) h hts
    refine ⟨t, ?_, h⟩
    rw [readDims]
    split
    · rfl
    · next hsome => simp [hopen] at hsome
  | succ n ih =>
    obtain ⟨inside, hopen, h⟩ := eat?_of_spaced (by decide) h
    obtain ⟨rest, hclose, h⟩ := eat?_of_spaced (by decide) h
    obtain ⟨r, hr, h⟩ := ih h
    refine ⟨r, ?_, h⟩
    rw [readDims]
    split
    · next hnone => simp [hopen] at hnone
    · next i hi =>
      obtain rfl := Option.some.inj (hopen.symm.trans hi)
      split
      · next hnone => simp [hclose] at hnone
      · next j hj =>
        obtain rfl := Option.some.inj (hclose.symm.trans hj)
        rw [hr]
        rfl

end Dims

section Read

/-- What reading a type expression finds: a name, arguments if an angle bracket opens behind it, and
dimensions. -/
theorem read_cases {t r : Text} {e : TypeExpr} (h : read t = some (e, r)) :
    ∃ args dims behind, e = mk (readName t).1 args dims ∧ (readName t).1 ≠ [] ∧
      readDims behind = some (dims, r) ∧
      (eat? '<' (readName t).2 = none ∧ args = [] ∧ behind = (readName t).2 ∨
        ∃ inside, eat? '<' (readName t).2 = some inside ∧
          readArgs inside = some (args, behind)) := by
  rw [read] at h
  simp only at h
  split at h
  · cases h
  · next hne =>
    split at h
    · next hplain =>
      obtain ⟨⟨dims, last⟩, hdims, he⟩ := Option.map_eq_some_iff.1 h
      cases he
      exact ⟨[], dims, _, rfl, hne, hdims, .inl ⟨hplain, rfl, rfl⟩⟩
    · next inside hopen =>
      split at h
      · cases h
      · next args behind hargs =>
        obtain ⟨⟨dims, last⟩, hdims, he⟩ := Option.map_eq_some_iff.1 h
        cases he
        exact ⟨args, dims, behind, rfl, hne, hdims, .inr ⟨inside, hopen, hargs⟩⟩

/-- What reading type arguments finds: one, and then more behind a comma or the closing bracket. -/
theorem readArgs_cases {t r : Text} {args : List TypeExpr} (h : readArgs t = some (args, r)) :
    ∃ e es behind, args = e :: es ∧ read t = some (e, behind) ∧
      (es = [] ∧ eat? '>' behind = some r ∨
        ∃ more, eat? ',' behind = some more ∧ more.length < t.length ∧
          readArgs more = some (es, r)) := by
  rw [readArgs] at h
  split at h
  · cases h
  · next e behind hread =>
    split at h
    · next more hmore =>
      split at h
      · next hshort =>
        obtain ⟨⟨es, last⟩, hes, he⟩ := Option.map_eq_some_iff.1 h
        cases he
        exact ⟨e, es, behind, rfl, hread, .inr ⟨more, hmore, hshort, hes⟩⟩
      · cases h
    · obtain ⟨last, hlast, he⟩ := Option.map_eq_some_iff.1 h
      cases he
      exact ⟨e, [], behind, rfl, hread, .inl ⟨rfl, hlast⟩⟩

private theorem read_eq_of_plain {t r : Text} {dims : Nat} (hne : (readName t).1 ≠ [])
    (hplain : eat? '<' (readName t).2 = none) (hdims : readDims (readName t).2 = some (dims, r)) :
    read t = some (mk (readName t).1 [] dims, r) := by
  rw [read]
  simp only [hne, dite_false]
  split
  · rw [hdims]
    rfl
  · next hsome => simp [hplain] at hsome

private theorem read_eq_of_args {t inside behind r : Text} {args : List TypeExpr} {dims : Nat}
    (hne : (readName t).1 ≠ []) (hopen : eat? '<' (readName t).2 = some inside)
    (hargs : readArgs inside = some (args, behind)) (hdims : readDims behind = some (dims, r)) :
    read t = some (mk (readName t).1 args dims, r) := by
  rw [read]
  simp only [hne, dite_false]
  split
  · next hnone => simp [hopen] at hnone
  · next i hi =>
    obtain rfl := Option.some.inj (hopen.symm.trans hi)
    rw [hargs]
    simp [hdims]

/-- What is read of a text is spelled by the part that is taken away. -/
theorem spells_of_read (t : Text) :
    (∀ e r, read t = some (e, r) → r <:+ t ∧ e.IsNamed ∧
      ∀ ts, Spaced ts r → Spaced (e.tokens ++ ts) t) ∧
    ∀ args r, readArgs t = some (args, r) → r <:+ t ∧ (∀ arg ∈ args, arg.IsNamed) ∧
      ∃ e es, args = e :: es ∧
        ∀ ts, Spaced ts r → Spaced (e.tokens ++ (laterTokens es ++ ts)) t := by
  induction hlen : t.length using Nat.strong_induction_on generalizing t with
  | _ n ih =>
  have hread : ∀ e r, read t = some (e, r) → r <:+ t ∧ e.IsNamed ∧
      ∀ ts, Spaced ts r → Spaced (e.tokens ++ ts) t := by
    intro e r h
    obtain ⟨args, dims, behind, rfl, hne, hdims, hbehind⟩ := read_cases h
    have hname := isName_readName hne
    have hrest := readName_suffix t
    rcases hbehind with ⟨-, rfl, rfl⟩ | ⟨inside, hopen, hargs⟩
    · refine ⟨(readDims_suffix hdims).trans hrest, isNamed_mk.2 ⟨hname, by simp⟩, fun ts hr => ?_⟩
      simp only [tokens, argTokens, List.nil_append, List.cons_append]
      exact spaced_of_readName (spaced_of_readDims hdims hr)
    · have hshort : inside.length < n := by
        have h₁ := length_readName t hne
        have h₂ := length_eat? hopen
        omega
      obtain ⟨hsuffix, hnamed, a, as, rfl, hspaced⟩ := (ih _ hshort inside rfl).2 _ _ hargs
      refine ⟨(readDims_suffix hdims).trans (hsuffix.trans ((eat?_suffix hopen).trans hrest)),
        isNamed_mk.2 ⟨hname, hnamed⟩, fun ts hr => ?_⟩
      have hinside := hspaced _ (spaced_of_readDims hdims hr)
      simpa only [tokens, argTokens, List.cons_append, List.append_assoc] using
        spaced_of_readName (spaced_of_eat? hopen hinside)
  refine ⟨hread, fun args r h => ?_⟩
  obtain ⟨e, es, behind, rfl, he, hbehind⟩ := readArgs_cases h
  obtain ⟨hsuffix, hnamed, hspaced⟩ := hread _ _ he
  rcases hbehind with ⟨rfl, hclose⟩ | ⟨more, hmore, hshort, hes⟩
  · refine ⟨(eat?_suffix hclose).trans hsuffix, by simpa using hnamed, e, [], rfl, fun ts hr => ?_⟩
    exact hspaced _ (spaced_of_eat? hclose hr)
  · obtain ⟨hlast, hall, a, as, rfl, hlater⟩ := (ih _ (hlen ▸ hshort) more rfl).2 _ _ hes
    refine ⟨hlast.trans ((eat?_suffix hmore).trans hsuffix),
      List.forall_mem_cons.2 ⟨hnamed, hall⟩, e, a :: as, rfl, fun ts hr => ?_⟩
    have hbehind := spaced_of_eat? hmore (hlater ts hr)
    simpa only [laterTokens, List.cons_append, List.append_assoc] using hspaced _ hbehind

/-- The tokens behind the name of a type expression are those that end a name. -/
theorem startsWith_argTokens (args : List TypeExpr) (dims : Nat) {ts : List Text}
    (hts : StartsWith ['>', ','] ts) :
    StartsWith ['<', '>', ',', '['] (argTokens args ++ (dimTokens dims ++ ts)) := by
  cases args with
  | cons e es => exact startsWith_cons (by decide) _
  | nil =>
    cases dims with
    | zero => exact hts.mono (by decide)
    | succ n => exact startsWith_cons (by decide) _

def ReadsBack (e : TypeExpr) : Prop :=
  ∀ ts t, StartsWith ['>', ','] ts → Spaced (e.tokens ++ ts) t →
    ∃ r, read t = some (e, r) ∧ Spaced ts r

private theorem readArgs_of_spaced {e : TypeExpr} {es : List TypeExpr} (he : ReadsBack e)
    (hes : ∀ arg ∈ es, ReadsBack arg) {ts : List Text} {t : Text}
    (h : Spaced (e.tokens ++ (laterTokens es ++ ts)) t) :
    ∃ r, readArgs t = some (e :: es, r) ∧ Spaced ts r := by
  induction es generalizing e t with
  | nil =>
    obtain ⟨behind, hread, h⟩ := he _ t (startsWith_cons (by decide) ts) h
    have hcomma : eat? ',' behind = none :=
      eat?_eq_none_of_spaced ['>'] (by decide) (by decide) h (startsWith_cons (by decide) ts)
    obtain ⟨r, hclose, h⟩ := eat?_of_spaced (by decide) h
    refine ⟨r, ?_, h⟩
    rw [readArgs, hread]
    simp [hcomma, hclose]
  | cons arg es ih =>
    simp only [laterTokens, List.cons_append, List.append_assoc] at h
    obtain ⟨behind, hread, h⟩ := he _ t (startsWith_cons (by decide) _) h
    obtain ⟨more, hmore, h⟩ := eat?_of_spaced (by decide) h
    obtain ⟨harg, hes⟩ := List.forall_mem_cons.1 hes
    obtain ⟨r, hargs, h⟩ := ih harg hes h
    have hshort : more.length < t.length :=
      (length_eat? hmore).trans_le ((spells_of_read t).1 _ _ hread).1.length_le
    refine ⟨r, ?_, h⟩
    rw [readArgs, hread]
    simp [hmore, hshort, hargs]

/-- A type expression is read back from each of its spellings. -/
theorem readsBack (e : TypeExpr) (hnamed : e.IsNamed) : ReadsBack e := by
  induction e using args_induction with
  | step name args dims ih =>
    intro ts t hts h
    obtain ⟨hname, hargs⟩ := isNamed_mk.1 hnamed
    simp only [tokens, List.cons_append, List.append_assoc] at h
    obtain ⟨rfl, hrest⟩ := readName_of_spaced hname h (startsWith_argTokens args dims hts)
    cases args with
    | nil =>
      simp only [argTokens, List.nil_append] at hrest
      have hplain : eat? '<' (readName t).2 = none := by
        refine eat?_eq_none_of_spaced ['>', ',', '['] (by decide) (by decide) hrest ?_
        cases dims with
        | zero => exact hts.mono (by decide)
        | succ n => exact startsWith_cons (by decide) _
      obtain ⟨r, hdims, hr⟩ := readDims_of_spaced hrest hts
      exact ⟨r, read_eq_of_plain hname.ne_nil hplain hdims, hr⟩
    | cons arg args =>
      simp only [argTokens, List.cons_append, List.append_assoc] at hrest
      obtain ⟨inside, hopen, hinside⟩ := eat?_of_spaced (by decide) hrest
      have hback : ∀ a ∈ arg :: args, ReadsBack a := fun a ha => ih a ha (hargs a ha)
      obtain ⟨harg, hlater⟩ := List.forall_mem_cons.1 hback
      obtain ⟨behind, hread, hbehind⟩ := readArgs_of_spaced harg hlater hinside
      obtain ⟨r, hdims, hr⟩ := readDims_of_spaced hbehind hts
      exact ⟨r, read_eq_of_args hname.ne_nil hopen hread hdims, hr⟩

theorem ofText?_of_spells {e : TypeExpr} {t : Text} (h : Spells e t) : ofText? t = some e := by
  have hend : StartsWith ['>', ','] [] := by rintro s ⟨⟩
  obtain ⟨r, hread, hr⟩ := readsBack e h.1 [] t hend (by rw [List.append_nil]; exact h.2)
  cases hr with
  | blank hb => simp [ofText?, hread, hb]

theorem read_of_ofText? {e : TypeExpr} {t : Text} (h : ofText? t = some e) :
    ∃ r, read t = some (e, r) ∧ isBlankText r := by
  rw [ofText?] at h
  split at h
  · next e' r hread =>
    split at h
    · next hb =>
      obtain rfl := Option.some.inj h
      exact ⟨r, hread, hb⟩
    · cases h
  · cases h

theorem spells_of_ofText? {e : TypeExpr} {t : Text} (h : ofText? t = some e) : Spells e t := by
  obtain ⟨r, hread, hb⟩ := read_of_ofText? h
  obtain ⟨-, hnamed, hspaced⟩ := (spells_of_read t).1 _ _ hread
  exact ⟨hnamed, by simpa using hspaced [] (.blank hb)⟩

private theorem ofText?_eq_some_iff {e : TypeExpr} {t : Text} : ofText? t = some e ↔ Spells e t :=
  ⟨spells_of_ofText?, ofText?_of_spells⟩

end Read

/-- Reading accepts exactly the spellings of type expressions; a text spells at most one, and every
expression whose names are names has a spelling and is read back from each one it has. -/
theorem ofText?_exact :
    (∀ t e, ofText? t = some e ↔ Spells e t) ∧
      (∀ t e e', Spells e t → Spells e' t → e = e') ∧
      ∀ e : TypeExpr, e.IsNamed →
        Spells e e.written ∧ ∀ t, Spaced e.tokens t → ofText? t = some e := by
  refine ⟨fun t e => ofText?_eq_some_iff, fun t e e' h h' => ?_, fun e h => ⟨?_, fun t ht => ?_⟩⟩
  · have hsame := (ofText?_of_spells h).symm.trans (ofText?_of_spells h')
    exact Option.some.inj hsame
  · exact ⟨h, spaced_flatten e.tokens⟩
  · exact ofText?_of_spells ⟨h, ht⟩

def mapToLists : TypeExpr :=
  mk "Map".toList [mk "String".toList [] 0, mk "List".toList [mk "Integer".toList [] 0] 1] 2

theorem ofText?_exact_mapToLists :
    mapToLists.IsNamed ∧ Spells mapToLists " Map < String,List<Integer>[ ] >[]\n[]".toList ∧
      ¬ Spells (mk "Map".toList [] 2) " Map < String,List<Integer>[ ] >[]\n[]".toList ∧
      mapToLists.written = "Map<String,List<Integer>[]>[][]".toList ∧
      ofText? "Map<String,List<Integer>[]>[][]".toList = some mapToLists := by
  obtain ⟨haccepts, hunique, hback⟩ := ofText?_exact
  have hnamed : mapToLists.IsNamed := by decide
  have hspaced := (haccepts " Map < String,List<Integer>[ ] >[]\n[]".toList mapToLists).1 (by cbv)
  refine ⟨hnamed, hspaced, fun h => ?_, rfl, (hback mapToLists hnamed).2 _ (hback _ hnamed).1.2⟩
  have hsame := hunique _ _ _ h hspaced
  simp [mapToLists] at hsame

/-- Brackets that stay open, or come in front, belong to no spelling. -/
example : ofText? "List<String>>".toList = none ∧ ofText? "List<int[>".toList = none ∧
    ofText? "[]".toList = none := by cbv

end Javadoc.TypeExpr
