import Javadoc.Proofs.TypeExpr.Primitive

/-! Links in the words of a type. A link starts with an opened inline tag, goes on with a name
without braces and ends with the brace that closes the tag. When each link is written as its name, the
linked words of a type become its plain words; and they hold one link for each name that can be
linked, in the order of the names. -/
namespace Javadoc

/-- A text without braces. -/
def Text.Unbraced (t : Text) : Prop := ∀ c ∈ t, c ≠ '{' ∧ c ≠ '}'

instance (t : Text) : Decidable t.Unbraced := List.decidableBAll (fun c => c ≠ '{' ∧ c ≠ '}') t

namespace TypeExpr
open Text

def linkOpen : Text := ['{', '@', 'l', 'i', 'n', 'k', ' ']

private theorem link_eq (name : Text) : link name = linkOpen ++ (name ++ ['}']) := by
  have hopen : "\x7b@link ".toList = linkOpen := by decide
  exact (congrArg (fun front => front ++ name ++ ['}']) hopen).trans (List.append_assoc _ _ _)

/-- A part of a text: a letter, or a whole link. -/
inductive Part where
  | letter (c : Char)
  | link (name : Text)
  deriving DecidableEq, Repr

namespace Part

def plain : Part → Text
  | letter c => [c]
  | link name => name

def name? : Part → Option Text
  | letter _ => none
  | link name => some name

end Part

def mayStandInLink (c : Char) : Bool := c != '{' && c != '}'

def readLink? (t : Text) : Option (Text × Text) :=
  (stripPrefix? linkOpen t).bind fun inside =>
    match inside.dropWhile mayStandInLink with
    | d :: rest => if d = '}' then some (inside.takeWhile mayStandInLink, rest) else none
    | [] => none

private theorem readLink?_eq_some {t name rest : Text} (h : readLink? t = some (name, rest)) :
    t = link name ++ rest ∧ name.Unbraced := by
  obtain ⟨inside, hin, h⟩ := Option.bind_eq_some_iff.1 h
  have ht := stripPrefix?_eq_some_iff.1 hin
  split at h
  · next d rest' hd =>
    split at h
    · next hc =>
      cases h
      have hcut := List.takeWhile_append_dropWhile (p := mayStandInLink) (l := inside)
      rw [hd, hc] at hcut
      refine ⟨?_, fun c hm => ?_⟩
      · rw [ht, link_eq, List.append_assoc, List.append_assoc]
        exact congrArg (linkOpen ++ ·) hcut.symm
      · have hplain := List.all_eq_true.1 List.all_takeWhile c hm
        simpa [mayStandInLink] using hplain
    · cases h
  · cases h

/-- Cuts a text into its links and the letters between them. -/
def cutLinks : Text → List Part
  | [] => []
  | c :: cs =>
    match _h : readLink? (c :: cs) with
    | some (name, rest) => .link name :: cutLinks rest
    | none => .letter c :: cutLinks cs
termination_by t => t.length
decreasing_by
  · have hlen := congrArg List.length (readLink?_eq_some _h).1
    rw [link_eq] at hlen
    simp only [List.length_append, List.length_cons] at hlen ⊢
    omega
  · simp

/-- The text with every link written as its name. -/
def unlink (t : Text) : Text := (cutLinks t).flatMap Part.plain

/-- The names of the links in a text, from left to right. -/
def links (t : Text) : List Text := (cutLinks t).filterMap Part.name?

section Cut

private theorem readLink?_link {name : Text} (h : name.Unbraced) (rest : Text) :
    readLink? (link name ++ rest) = some (name, rest) := by
  have hplain : ∀ c ∈ name, mayStandInLink c := by
    intro c hc
    simpa [mayStandInLink] using h c hc
  have hcut := span_append hplain (r := '}' :: rest) (by rintro c ⟨⟩; rfl)
  have hstrip : stripPrefix? linkOpen (link name ++ rest) = some (name ++ '}' :: rest) := by
    rw [link_eq, List.append_assoc, List.append_assoc]
    exact stripPrefix?_eq_some_iff.2 rfl
  rw [readLink?, hstrip, Option.bind_some, hcut.1, hcut.2]
  exact if_pos rfl

private theorem readLink?_of_ne {c : Char}
    (hc : c ≠ '{') (t : Text) : readLink? (c :: t) = none := by
  cases h : readLink? (c :: t) with
  | none => rfl
  | some found =>
    have ht := (readLink?_eq_some h).1
    rw [link_eq, linkOpen] at ht
    exact absurd (List.cons.inj ht).1 hc

/-- A link has one opening brace, its first letter. -/
theorem brace_not_mem_tail_link {name : Text} (h : name.Unbraced) : '{' ∉ (link name).tail := by
  have hopen : '{' ∉ linkOpen.tail := by decide
  rw [link_eq, List.tail_append_of_ne_nil (by decide)]
  intro hm
  rcases List.mem_append.1 hm with hm | hm
  · exact hopen hm
  · rcases List.mem_append.1 hm with hm | hm
    · exact (h _ hm).1 rfl
    · exact absurd hm (by decide)

/-- A link that is not closed is not closed behind another opening brace. -/
theorem readLink?_append_brace {t : Text} (hne : t ≠ []) (rest : Text) :
    readLink? (t ++ '{' :: rest) =
      (readLink? t).map fun found => (found.1, found.2 ++ '{' :: rest) := by
  cases h : readLink? t with
  | some found =>
    obtain ⟨rfl, hname⟩ := readLink?_eq_some h
    rw [List.append_assoc, readLink?_link hname]
    rfl
  | none =>
    cases h' : readLink? (t ++ '{' :: rest) with
    | none => rfl
    | some found =>
      obtain ⟨ht, hname⟩ := readLink?_eq_some h'
      exfalso
      -- the brace behind `t` is no part of the link, so the link lies in `t`
      rcases List.append_eq_append_iff.1 ht with ⟨m, hlink, hm⟩ | ⟨m, rfl, -⟩
      · cases m with
        | nil =>
          rw [List.append_nil] at hlink
          have hwhole := readLink?_link hname []
          rw [List.append_nil, hlink, h] at hwhole
          cases hwhole
        | cons d m =>
          have hd := (List.cons.inj hm).1
          refine brace_not_mem_tail_link hname ?_
          rw [hlink, List.tail_append_of_ne_nil hne, hd]
          exact List.mem_append_right _ List.mem_cons_self
      · rw [readLink?_link hname] at h
        cases h

private theorem cutLinks_link {name : Text} (h : name.Unbraced) (rest : Text) :
    cutLinks (link name ++ rest) = .link name :: cutLinks rest := by
  have hread := readLink?_link h rest
  rw [link_eq, linkOpen] at hread ⊢
  simp only [List.cons_append] at hread ⊢
  rw [cutLinks]
  split
  · next found hf =>
    rw [hread] at hf
    cases hf
    rfl
  · next hf =>
    rw [hread] at hf
    cases hf

private theorem cutLinks_letter {c : Char} {t : Text} (h : readLink? (c :: t) = none) :
    cutLinks (c :: t) = .letter c :: cutLinks t := by
  rw [cutLinks]
  split
  · next hf =>
    rw [h] at hf
    cases hf
  · rfl

/-- A text can be cut in front of every opening brace. -/
theorem cutLinks_append_brace (t rest : Text) :
    cutLinks (t ++ '{' :: rest) = cutLinks t ++ cutLinks ('{' :: rest) := by
  fun_induction cutLinks t with
  | case1 => rfl
  | case2 c cs name behind h ih =>
    obtain ⟨ht, hname⟩ := readLink?_eq_some h
    rw [ht, List.append_assoc, cutLinks_link hname, ih, List.cons_append]
  | case3 c cs h ih =>
    have hnone := readLink?_append_brace (List.cons_ne_nil c cs) rest
    rw [h, Option.map_none] at hnone
    rw [List.cons_append] at hnone ⊢
    rw [cutLinks_letter hnone, ih, List.cons_append]

/-- Every link is found, whatever stands around it. -/
theorem cutLinks_append_link (t : Text) {name : Text} (h : name.Unbraced) (rest : Text) :
    cutLinks (t ++ (link name ++ rest)) = cutLinks t ++ .link name :: cutLinks rest := by
  have hlink := cutLinks_link h rest
  have hcut := cutLinks_append_brace t (linkOpen.tail ++ (name ++ '}' :: rest))
  rw [link_eq, List.append_assoc, List.append_assoc] at hlink ⊢
  exact hcut.trans (congrArg (cutLinks t ++ ·) hlink)

private theorem cutLinks_append_of_not_mem {t : Text} (h : '{' ∉ t) (rest : Text) :
    cutLinks (t ++ rest) = t.map .letter ++ cutLinks rest := by
  induction t with
  | nil => rfl
  | cons c t ih =>
    have hc : c ≠ '{' := fun hc => h (hc ▸ List.mem_cons_self)
    have ht : '{' ∉ t := fun ht => h (List.mem_cons_of_mem c ht)
    rw [List.cons_append, cutLinks_letter (readLink?_of_ne hc _), ih ht, List.map_cons,
      List.cons_append]

end Cut

structure ReadsAs (t plain : Text) (names : List Text) : Prop where
  unlink : ∀ rest, unlink (t ++ rest) = plain ++ unlink rest
  links : ∀ rest, links (t ++ rest) = names ++ links rest

namespace ReadsAs

private theorem nil : ReadsAs [] [] [] where
  unlink _ := rfl
  links _ := rfl

private theorem append {t u p q : Text} {ns ms : List Text} (h : ReadsAs t p ns)
    (h' : ReadsAs u q ms) :
    ReadsAs (t ++ u) (p ++ q) (ns ++ ms) where
  unlink rest := by rw [List.append_assoc, h.unlink, h'.unlink, List.append_assoc]
  links rest := by rw [List.append_assoc, h.links, h'.links, List.append_assoc]

private theorem plain {t : Text} (h : '{' ∉ t) : ReadsAs t t [] where
  unlink rest := by
    rw [TypeExpr.unlink, cutLinks_append_of_not_mem h, List.flatMap_append, List.flatMap_map]
    exact congrArg (· ++ TypeExpr.unlink rest) (List.flatMap_singleton' t)
  links rest := by
    rw [TypeExpr.links, cutLinks_append_of_not_mem h, List.filterMap_append, List.filterMap_map]
    exact congrArg (· ++ TypeExpr.links rest) (List.filterMap_eq_nil_iff.2 fun _ _ => rfl)

private theorem link {name : Text} (h : name.Unbraced) : ReadsAs (link name) name [name] where
  unlink rest := by
    rw [TypeExpr.unlink, cutLinks_link h, List.flatMap_cons]
    rfl
  links rest := by
    rw [TypeExpr.links, cutLinks_link h]
    rfl

/-- Joined texts read as their plain forms joined. -/
theorem joinWith {α : Type} {sep : Text} (hs : '{' ∉ sep) {f g : α → Text} {ns : α → List Text}
    {es : List α} (h : ∀ e ∈ es, ReadsAs (f e) (g e) (ns e)) :
    ReadsAs (joinWith sep (es.map f)) (joinWith sep (es.map g)) (es.flatMap ns) := by
  induction es with
  | nil => exact nil
  | cons e es ih =>
    obtain ⟨he, hes⟩ := List.forall_mem_cons.1 h
    cases es with
    | nil => simpa [Text.joinWith] using he
    | cons e' es => simpa [Text.joinWith] using (he.append (plain hs)).append (ih hes)

private theorem whole {t p : Text} {ns : List Text} (h : ReadsAs t p ns) :
    TypeExpr.unlink t = p ∧ TypeExpr.links t = ns := by
  have hu := h.unlink []
  have hl := h.links []
  simpa [TypeExpr.unlink, TypeExpr.links, cutLinks] using And.intro hu hl

end ReadsAs

end TypeExpr

/-- The words for a type: a name with any text behind it, and the words for the arguments. -/
inductive TypePhrase where
  | mk (name : Text) (args : List TypePhrase) (suffix : Text)

namespace TypePhrase
open Text TypeExpr

mutual

/-- The words as a text, arguments after `of` and with `and` between them. With `linked`, the names
of types become links. -/
def render (linked : Bool) : TypePhrase → Text
  | mk name args suffix =>
    let shown := (if linked && isLinked name then link name else name) ++ suffix
    if args.isEmpty then shown
    else shown ++ " of ".toList ++ joinWith " and ".toList (renderEach linked args)

def renderEach (linked : Bool) : List TypePhrase → List Text
  | [] => []
  | p :: ps => render linked p :: renderEach linked ps

end

mutual

def nodes : TypePhrase → List (Text × Text)
  | mk name args suffix => (name, suffix) :: nodesOf args

def nodesOf : List TypePhrase → List (Text × Text)
  | [] => []
  | p :: ps => nodes p ++ nodesOf ps

end

def names (p : TypePhrase) : List Text := p.nodes.map Prod.fst

/-- A phrase without braces in its names and behind them. -/
def Unbraced (p : TypePhrase) : Prop := ∀ n ∈ p.nodes, n.1.Unbraced ∧ n.2.Unbraced

instance (p : TypePhrase) : Decidable p.Unbraced :=
  inferInstanceAs (Decidable (∀ n ∈ p.nodes, _))

/-- A name that is neither that of a primitive type nor a wildcard. -/
def IsReference (name : Text) : Prop := name ∉ primitives ∧ ¬ ['?'] <+: name

instance (name : Text) : Decidable (IsReference name) := inferInstanceAs (Decidable (_ ∧ _))

end TypePhrase

namespace TypeExpr

mutual

/-- The words for a type expression, its dimensions as they are written. -/
def phrase : TypeExpr → TypePhrase
  | mk name args dims => .mk name (phraseEach args) (writeDims dims)

def phraseEach : List TypeExpr → List TypePhrase
  | [] => []
  | e :: es => phrase e :: phraseEach es

end

/-- The words for a type expression are rendered as the type expression itself. -/
theorem render_phrase (linked : Bool) (e : TypeExpr) : e.phrase.render linked = e.render linked := by
  have heach (es : List TypeExpr) (h : ∀ e ∈ es, e.phrase.render linked = e.render linked) :
      TypePhrase.renderEach linked (phraseEach es) = renderEach linked es ∧
        (phraseEach es).isEmpty = es.isEmpty := by
    induction es with
    | nil => exact ⟨rfl, rfl⟩
    | cons e es ih =>
      obtain ⟨he, hes⟩ := List.forall_mem_cons.1 h
      rw [phraseEach, TypePhrase.renderEach, renderEach, he, (ih hes).1]
      exact ⟨rfl, rfl⟩
  induction e using args_induction with
  | step name args dims ih =>
    obtain ⟨hargs, hempty⟩ := heach args ih
    rw [phrase, TypePhrase.render, render, hargs, hempty]

private theorem names_phrase (e : TypeExpr) : e.phrase.names = e.names := by
  have heach (es : List TypeExpr) (h : ∀ e ∈ es, e.phrase.names = e.names) :
      (TypePhrase.nodesOf (phraseEach es)).map Prod.fst = namesOf es := by
    induction es with
    | nil => rfl
    | cons e es ih =>
      obtain ⟨he, hes⟩ := List.forall_mem_cons.1 h
      rw [phraseEach, TypePhrase.nodesOf, namesOf, List.map_append, ih hes, ← he]
      rfl
  induction e using args_induction with
  | step name args dims ih =>
    rw [phrase, TypePhrase.names, TypePhrase.nodes, names, List.map_cons, heach args ih]

/-- Dimensions have no braces. -/
theorem unbraced_phrase {e : TypeExpr} (h : ∀ name ∈ e.names, name.Unbraced) :
    e.phrase.Unbraced := by
  have hdims (k : Nat) : (writeDims k).Unbraced := by
    intro c hc
    rcases mem_writeDims hc with rfl | rfl <;> decide
  have heach (es : List TypeExpr)
      (ih : ∀ e ∈ es, (∀ name ∈ e.names, name.Unbraced) → e.phrase.Unbraced)
      (h : ∀ name ∈ namesOf es, name.Unbraced) :
      ∀ n ∈ TypePhrase.nodesOf (phraseEach es), n.1.Unbraced ∧ n.2.Unbraced := by
    induction es with
    | nil => nofun
    | cons e es ihes =>
      rw [namesOf, List.forall_mem_append] at h
      rw [phraseEach, TypePhrase.nodesOf, List.forall_mem_append]
      obtain ⟨he, hes⟩ := List.forall_mem_cons.1 ih
      exact ⟨he h.1, ihes hes h.2⟩
  induction e using args_induction with
  | step name args dims ih =>
    rw [names, List.forall_mem_cons] at h
    rw [phrase, TypePhrase.Unbraced, TypePhrase.nodes, List.forall_mem_cons]
    exact ⟨⟨h.1, hdims dims⟩, heach args ih h.2⟩

end TypeExpr

namespace TypePhrase
open Text TypeExpr

/-- What holds of a phrase if it holds of its arguments holds of all phrases. -/
@[elab_as_elim]
theorem args_induction {P : TypePhrase → Prop}
    (step : ∀ name args suffix, (∀ p ∈ args, P p) → P (mk name args suffix)) (p : TypePhrase) : P p :=
  @TypePhrase.rec P (fun ps => ∀ p ∈ ps, P p) step (by simp)
    (fun _ _ hp hps => List.forall_mem_cons.2 ⟨hp, hps⟩) p

private theorem renderEach_eq_map (linked : Bool) (ps : List TypePhrase) :
    renderEach linked ps = ps.map (render linked) := by
  induction ps with
  | nil => rfl
  | cons p ps ih => rw [renderEach, ih, List.map_cons]

private theorem nodesOf_eq_flatMap (ps : List TypePhrase) : nodesOf ps = ps.flatMap nodes := by
  induction ps with
  | nil => rfl
  | cons p ps ih => rw [nodesOf, ih, List.flatMap_cons]

private theorem isLinked_iff {name : Text} : isLinked name ↔ IsReference name := by
  have hhead : name.head? != some '?' ↔ ¬ ['?'] <+: name := by
    cases name with
    | nil => simp
    | cons c cs =>
      simp only [List.head?_cons, bne_iff_ne, ne_eq, Option.some.injEq, List.cons_prefix_cons,
        List.nil_prefix, and_true]
      exact not_congr eq_comm
  rw [isLinked, Bool.and_eq_true, hhead, IsReference, Bool.not_eq_true', ← Bool.not_eq_true,
    List.contains_iff_mem]

/-- The references among the names of a phrase. -/
def references (p : TypePhrase) : List Text := p.names.filter fun name => IsReference name

private theorem references_mk (name : Text) (args : List TypePhrase) (suffix : Text) :
    references (mk name args suffix) =
      (if IsReference name then [name] else []) ++ args.flatMap references := by
  have hargs : (args.flatMap nodes).map Prod.fst = args.flatMap names := by
    rw [List.map_flatMap]
    rfl
  rw [references, names, nodes, nodesOf_eq_flatMap, List.map_cons, hargs, List.filter_cons,
    List.filter_flatMap]
  simp only [decide_eq_true_eq]
  split <;> rfl

/-- The linked words of a phrase read as its plain words. -/
theorem readsAs_render (p : TypePhrase) (h : p.Unbraced) :
    ReadsAs (p.render true) (p.render false) p.references := by
  induction p using args_induction with
  | step name args suffix ih =>
    rw [Unbraced, nodes, List.forall_mem_cons, nodesOf_eq_flatMap] at h
    obtain ⟨⟨hname, hsuffix⟩, hargs⟩ := h
    have hplain {t : Text} (ht : t.Unbraced) : '{' ∉ t := fun hm => (ht _ hm).1 rfl
    have hshown : ReadsAs (if isLinked name then link name else name) name
        (if IsReference name then [name] else []) := by
      by_cases hr : IsReference name
      · rw [if_pos hr, if_pos (isLinked_iff.2 hr)]
        exact ReadsAs.link hname
      · rw [if_neg hr, if_neg (fun hl => hr (isLinked_iff.1 hl))]
        exact ReadsAs.plain (hplain hname)
    have hfront := hshown.append (ReadsAs.plain (hplain hsuffix))
    rw [List.append_nil] at hfront
    have heach : ReadsAs (joinWith " and ".toList (args.map (render true)))
        (joinWith " and ".toList (args.map (render false))) (args.flatMap references) :=
      ReadsAs.joinWith (by decide) fun p hp =>
        ih p hp fun n hn => hargs n (List.mem_flatMap.2 ⟨p, hp, hn⟩)
    have hof : ReadsAs " of ".toList " of ".toList [] := ReadsAs.plain (by decide)
    rw [references_mk, render, render]
    simp only [Bool.true_and, Bool.false_and, Bool.false_eq_true, if_false, renderEach_eq_map]
    cases args with
    | nil =>
      simp only [List.isEmpty_nil, if_true, List.flatMap_nil, List.append_nil]
      exact hfront
    | cons p ps =>
      have hwhole := (hfront.append hof).append heach
      simp only [List.append_nil] at hwhole
      simp only [List.isEmpty_cons, Bool.false_eq_true, if_false]
      exact hwhole

/-- Every link in a text is found, whatever stands around it. In the linked words of a type there is
one for each reference among the names, from left to right, and with each link written as its name the
linked words are the plain ones. -/
theorem unlink_render :
    (∀ (t : Text) {name : Text}, name.Unbraced → ∀ rest,
      cutLinks (t ++ (link name ++ rest)) = cutLinks t ++ .link name :: cutLinks rest) ∧
    (∀ p : TypePhrase, p.Unbraced →
      unlink (p.render true) = p.render false ∧ links (p.render true) = p.references) ∧
    (∀ e : TypeExpr, (∀ name ∈ e.names, name.Unbraced) →
      unlink (e.render true) = e.render false ∧
        links (e.render true) = e.names.filter fun name => IsReference name) ∧
    ∀ (e : TypeExpr) linked, e.phrase.render linked = e.render linked := by
  have hphrase (p : TypePhrase) (h : p.Unbraced) := (readsAs_render p h).whole
  refine ⟨fun t name h => cutLinks_append_link t h, hphrase, fun e h => ?_,
    fun e linked => render_phrase linked e⟩
  have hwhole := hphrase e.phrase (unbraced_phrase h)
  rw [references, names_phrase, render_phrase, render_phrase] at hwhole
  exact hwhole

def mapPhrase : TypePhrase :=
  mk "Map".toList
    [mk "String".toList [] "[]".toList,
      mk "List".toList [mk "? extends Number".toList [] [], mk "int".toList [] " [ ]".toList] []]
    "...".toList

theorem unlink_render_mapPhrase :
    let linked := "\x7b@link Map\x7d... of \x7b@link String\x7d[] and \x7b@link List\x7d of ".toList ++
      "? extends Number and int [ ]".toList
    Text.Unbraced "Map".toList ∧
      cutLinks ("\x7b@link a ".toList ++ (link "Map".toList ++ " of".toList)) =
        cutLinks "\x7b@link a ".toList ++ .link "Map".toList :: cutLinks " of".toList ∧
      mapPhrase.Unbraced ∧ mapPhrase.render true = linked ∧
      unlink linked = "Map... of String[] and List of ? extends Number and int [ ]".toList ∧
      links linked = ["Map".toList, "String".toList, "List".toList] ∧
      (∀ name ∈ mapToLists.names, name.Unbraced) ∧
      unlink (mapToLists.render true) = "Map[][] of String and List[] of Integer".toList ∧
      links (mapToLists.render true) =
        ["Map".toList, "String".toList, "List".toList, "Integer".toList] := by
  intro linked
  obtain ⟨hcut, hphrase, hexpr, -⟩ := unlink_render
  have hname : Text.Unbraced "Map".toList := by decide
  have h : mapPhrase.Unbraced := by decide
  have hlinked : mapPhrase.render true = linked := by decide +kernel
  have hnames : ∀ name ∈ mapToLists.names, name.Unbraced := by decide
  obtain ⟨hunlink, hlinks⟩ := hphrase mapPhrase h
  obtain ⟨hunlink', hlinks'⟩ := hexpr mapToLists hnames
  rw [hlinked] at hunlink hlinks
  refine ⟨hname, hcut _ hname _, h, hlinked, hunlink.trans ?_, hlinks.trans ?_, hnames, hunlink'.trans ?_,
    hlinks'.trans ?_⟩
  · decide +kernel
  · decide +kernel
  · decide +kernel
  · decide +kernel

end TypePhrase

end Javadoc
