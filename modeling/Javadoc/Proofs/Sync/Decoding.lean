import Javadoc.Proofs.Sync.Encoding

/-! Which texts decoding gives back from their codes. Tokens share the mark at their ends, and those
of one kind are put back before those of the next, so letters of a token between two marks of other
tokens are taken for that token. Decoding gives back exactly the texts in which none stand so. -/
namespace Javadoc

namespace Text

private theorem mem_replaceAll {pat value : Text} (hp : pat ≠ []) {t : Text} {c : Char}
    (h : c ∈ replaceAll pat value t) : c ∈ value ∨ c ∈ t := by
  obtain ⟨n, hn⟩ : ∃ n, t.length ≤ n := ⟨_, Nat.le_refl _⟩
  induction n generalizing t with
  | zero =>
    obtain rfl : t = [] := List.length_eq_zero_iff.1 (by omega)
    cases h
  | succ n ih =>
    have hpos := List.length_pos_iff.2 hp
    rw [replaceAll_eq pat value hp] at h
    split at h
    · exact .inr h
    · next before after hb =>
      obtain rfl := breakOn?_eq_some hb
      simp only [List.mem_append, List.length_append] at h hn ⊢
      rcases h with h | h | h
      · exact .inr (.inl (.inl h))
      · exact .inl h
      · exact (ih h (by omega)).imp_right .inr

end Text

namespace Entry

variable {ms : List (Char × Text)} {e : Char × Text} {t : Text}

/-- Writing one kind of markup after the others is writing all of them. -/
theorem encodeWith_encodeWith (hms : e :: ms ⊆ markup) (hd : ∀ f ∈ ms, f.1 ≠ e.1) (t : Text) :
    encodeWith [e] (encodeWith ms t) = encodeWith (e :: ms) t := by
  have hchar (c : Char) : encodeWith [e] (codeOf ms c) = codeOf (e :: ms) c := by
    by_cases hc : e.1 = c
    · subst hc
      rw [codeOf_of_ne hd, codeOf_self]
      simp [encodeWith, codeOf_self]
    · have hskip : codeOf (e :: ms) c = codeOf ms c := by simp [codeOf, hc]
      rw [hskip]
      refine encodeWith_of_not_mem fun e' he' hm => ?_
      obtain rfl := List.mem_singleton.1 he'
      rcases codeOf_cases ms c with h | ⟨f, hf, -, h⟩
      · rw [h] at hm
        exact hc (List.mem_singleton.1 hm)
      · rw [h] at hm
        exact not_mem_token (hms List.mem_cons_self) (hms (List.mem_cons_of_mem _ hf)) hm
  induction t with
  | nil => rfl
  | cons c t ih => rw [encodeWith_cons, encodeWith_append, hchar, ih, encodeWith_cons]

private theorem exists_codeOf (he : e ∈ ms) : ∃ f ∈ ms, f.1 = e.1 ∧ codeOf ms e.1 = f.2 := by
  unfold codeOf
  split
  · next f token hf =>
    exact ⟨_, List.mem_of_find?_eq_some hf, by simpa using List.find?_some hf, rfl⟩
  · next h => simpa using List.find?_eq_none.1 h e he

theorem not_mem_encodeWith (hms : ms ⊆ markup) (he : e ∈ ms) (t : Text) :
    e.1 ∉ encodeWith ms t := by
  intro hm
  obtain ⟨c, -, hm⟩ := List.mem_flatMap.1 hm
  obtain ⟨f, hf, hc⟩ : ∃ f ∈ ms, e.1 ∈ f.2 := by
    rcases codeOf_cases ms c with h | ⟨f, hf, -, h⟩
    · obtain rfl := List.mem_singleton.1 (h ▸ hm)
      obtain ⟨f, hf, -, h⟩ := exists_codeOf he
      exact ⟨f, hf, h ▸ hm⟩
    · exact ⟨f, hf, h ▸ hm⟩
  exact not_mem_token (hms he) (hms hf) hc

/-- Writing the markup of one kind is the inverse of putting it back. -/
theorem encodeWith_replaceAll (he : e.2 ≠ []) (ht : e.1 ∉ t) :
    encodeWith [e] (Text.replaceAll e.2 [e.1] t) = t := by
  obtain ⟨n, hn⟩ : ∃ n, t.length ≤ n := ⟨_, Nat.le_refl _⟩
  induction n generalizing t with
  | zero =>
    obtain rfl : t = [] := List.length_eq_zero_iff.1 (by omega)
    rfl
  | succ n ih =>
    have hpos := List.length_pos_iff.2 he
    have hself {t : Text} (ht : e.1 ∉ t) : encodeWith [e] t = t :=
      encodeWith_of_not_mem fun f hf => List.mem_singleton.1 hf ▸ ht
    rw [Text.replaceAll_eq _ _ he]
    split
    · exact hself ht
    · next before after hb =>
      obtain rfl := Text.breakOn?_eq_some hb
      simp only [List.mem_append, not_or, List.length_append] at ht hn
      rw [encodeWith_append, encodeWith_append, hself ht.1.1, ih ht.2 (by omega), List.append_assoc]
      simp [encodeWith, codeOf_self]

/-- Putting the markup of one kind back gives the text exactly if its token starts nowhere but
where it stands for that markup. -/
theorem replaceAll_encodeWith_iff (he : e.2 ≠ []) :
    Text.replaceAll e.2 [e.1] (encodeWith [e] t) = t ↔
      ∀ a d b, t = a ++ d :: b → d ≠ e.1 → ¬ e.2 <+: encodeWith [e] (d :: b) := by
  induction t with
  | nil => simp [encodeWith, Text.replaceAll, Text.replaceFrom]
  | cons c t ih =>
    have hstep : (∀ a d b, c :: t = a ++ d :: b → d ≠ e.1 → ¬ e.2 <+: encodeWith [e] (d :: b)) ↔
        (c ≠ e.1 → ¬ e.2 <+: encodeWith [e] (c :: t)) ∧
          ∀ a d b, t = a ++ d :: b → d ≠ e.1 → ¬ e.2 <+: encodeWith [e] (d :: b) := by
      refine ⟨fun h => ⟨h [] c t rfl, fun a d b hb => h (c :: a) d b (by rw [hb]; rfl)⟩, ?_⟩
      rintro ⟨hc, ht⟩ a d b hb
      cases a with
      | nil =>
        obtain ⟨rfl, rfl⟩ := List.cons.inj hb
        exact hc
      | cons x a => exact ht a d b (List.cons.inj hb).2
    rw [hstep, ← ih]
    by_cases hc : c = e.1
    · subst hc
      rw [encodeWith_cons, codeOf_self, Text.replaceAll_append _ _ _ he]
      simp
    · have hcode : encodeWith [e] (c :: t) = c :: encodeWith [e] t := by
        rw [encodeWith_cons, codeOf_of_ne (by simpa using Ne.symm hc), List.singleton_append]
      by_cases hp : e.2 <+: encodeWith [e] (c :: t)
      · refine iff_of_false (fun h => ?_) fun h => h.1 hc hp
        obtain ⟨r, hr⟩ := hp
        rw [← hr, Text.replaceAll_append _ _ _ he] at h
        exact hc (List.cons.inj h).1.symm
      · have hkeep := hcode ▸ hp
        rw [hcode, Text.replaceAll_cons_of_not_prefix hkeep]
        simp [hc, hkeep]

def decodeWith (ms : List (Char × Text)) (t : Text) : Text :=
  ms.foldl (fun t (c, token) => Text.replaceAll token [c] t) t

private theorem decodeWith_cons (e : Char × Text) (ms : List (Char × Text)) (t : Text) :
    decodeWith (e :: ms) t = decodeWith ms (Text.replaceAll e.2 [e.1] t) := rfl

private theorem markup_ne_nil (he : e ∈ markup) : e.2 ≠ [] := by
  obtain ⟨name, -, hname, -⟩ := markup_spec he
  simp [hname]

/-- What has been decoded has the code it was decoded from. -/
theorem encodeWith_decodeWith (hms : ms ⊆ markup) (hd : ms.Pairwise fun e f => f.1 ≠ e.1)
    (ht : ∀ e ∈ ms, e.1 ∉ t) : encodeWith ms (decodeWith ms t) = t := by
  induction ms generalizing t with
  | nil => exact encodeWith_nil t
  | cons e ms ih =>
    obtain ⟨he, hd⟩ := List.pairwise_cons.1 hd
    have hne := markup_ne_nil (hms List.mem_cons_self)
    rw [decodeWith_cons, ← encodeWith_encodeWith hms he,
      ih (fun f hf => hms (List.mem_cons_of_mem e hf)) hd fun f hf hm => ?_,
      encodeWith_replaceAll hne (ht e List.mem_cons_self)]
    rcases Text.mem_replaceAll hne hm with hm | hm
    · exact he f hf (List.mem_singleton.1 hm)
    · exact ht f (List.mem_cons_of_mem e hf) hm

/-- Decoding gives a text back exactly if putting each kind of markup back does. -/
theorem decodeWith_encodeWith_cons_iff (hms : e :: ms ⊆ markup)
    (hd : (e :: ms).Pairwise fun e f => f.1 ≠ e.1) :
    decodeWith (e :: ms) (encodeWith (e :: ms) t) = t ↔
      Text.replaceAll e.2 [e.1] (encodeWith [e] (encodeWith ms t)) = encodeWith ms t ∧
        decodeWith ms (encodeWith ms t) = t := by
  obtain ⟨he, hd'⟩ := List.pairwise_cons.1 hd
  have hne := markup_ne_nil (hms List.mem_cons_self)
  rw [encodeWith_encodeWith hms he, decodeWith_cons]
  refine ⟨fun h => ?_, fun ⟨h, h'⟩ => by rw [h, h']⟩
  have hback := encodeWith_decodeWith (fun f hf => hms (List.mem_cons_of_mem e hf)) hd'
    (t := Text.replaceAll e.2 [e.1] (encodeWith (e :: ms) t)) fun f hf hm => by
      rcases Text.mem_replaceAll hne hm with hm | hm
      · exact he f hf (List.mem_singleton.1 hm)
      · exact not_mem_encodeWith hms (List.mem_cons_of_mem e hf) t hm
  rw [h] at hback
  exact ⟨hback.symm, hback ▸ h⟩

def marked (ms : List (Char × Text)) : List Char := mark :: ms.map Prod.fst

/-- What reads like the token of `e` once the markup of the kinds `ms` is written as tokens as well:
the letters of the token between two marked characters. The first one is not the markup that the
token stands for, as the mark at its end belongs to a token already. -/
def misreadings (e : Char × Text) (ms : List (Char × Text)) : List Text :=
  (marked ms).flatMap fun x => (marked (e :: ms)).map fun y => x :: (e.2.tail.dropLast ++ [y])

private theorem mem_misreadings {name : Text} (hname : e.2 = mark :: (name ++ [mark])) {p : Text} :
    p ∈ misreadings e ms ↔ ∃ x ∈ marked ms, ∃ y ∈ marked (e :: ms), x :: (name ++ [y]) = p := by
  have hmid : e.2.tail.dropLast = name := by simp [hname]
  simp only [misreadings, hmid, List.mem_flatMap, List.mem_map]

private theorem exists_codeOf_marked (hms : ms ⊆ markup) {c : Char} (h : c ∈ marked ms) :
    ∃ a b, codeOf ms c = a ++ [mark] ∧ codeOf ms c = mark :: b := by
  rcases List.mem_cons.1 h with rfl | h
  · have hcode : codeOf ms mark = [mark] := codeOf_of_ne fun e he => by
      obtain ⟨-, -, -, -, hne, -⟩ := markup_spec (hms he)
      exact hne
    exact ⟨[], [], hcode, hcode⟩
  · obtain ⟨e, he, rfl⟩ := List.mem_map.1 h
    obtain ⟨f, hf, -, hcode⟩ := exists_codeOf he
    obtain ⟨name, -, hname, -⟩ := markup_spec (hms hf)
    exact ⟨mark :: name, name ++ [mark], by rw [hcode, hname]; rfl, by rw [hcode, hname]⟩

private theorem mem_marked {c : Char} (h : mark ∈ codeOf ms c) : c ∈ marked ms := by
  rcases codeOf_cases ms c with hc | ⟨e, he, rfl, -⟩
  · rw [hc] at h
    exact List.mem_singleton.1 h ▸ List.mem_cons_self
  · exact List.mem_cons_of_mem _ (List.mem_map_of_mem he)

private theorem cut_at_mark (hms : ms ⊆ markup) {c : Char} {a r : Text}
    (h : codeOf ms c = a ++ mark :: r) :
    (∃ f ∈ ms, ∃ name ∈ tokenNames, f.2 = mark :: (name ++ [mark]) ∧ r = name ++ [mark]) ∨
      r = [] := by
  rcases List.eq_nil_or_concat r with rfl | ⟨r, z, rfl⟩
  · exact .inr rfl
  · rcases codeOf_cases ms c with hc | ⟨f, hf, -, hc⟩
    · have hlen := congrArg List.length (hc.symm.trans h)
      simp only [List.length_append, List.length_cons, List.length_nil, List.length_concat] at hlen
      omega
    · obtain ⟨name, hn, hname, -⟩ := markup_spec (hms hf)
      rw [hc, hname] at h
      cases a with
      | nil => exact .inl ⟨f, hf, name, hn, hname, (List.cons.inj h).2.symm⟩
      | cons x a =>
        have h : name ++ [mark] = (a ++ mark :: r) ++ [z] := by simpa using (List.cons.inj h).2
        have hm : mark ∈ name := by simp [(List.append_inj' h rfl).1]
        exact absurd hm (not_mem_name hn (by decide))

/-- What stands in front of a code stands in front of the text, as far as it holds no mark. -/
theorem exists_of_front (hms : ms ⊆ markup) {n r : Text} (hn : mark ∉ n)
    (h : encodeWith ms t = n ++ r) : ∃ t', t = n ++ t' ∧ r = encodeWith ms t' := by
  induction n generalizing t with
  | nil => exact ⟨t, rfl, h.symm⟩
  | cons c n ih =>
    simp only [List.mem_cons, not_or] at hn
    cases t with
    | nil => simp [encodeWith] at h
    | cons d t =>
      rw [encodeWith_cons] at h
      rcases codeOf_cases ms d with hd | ⟨f, hf, -, hd⟩
      · rw [hd] at h
        obtain ⟨hdc, h⟩ := List.cons.inj h
        obtain ⟨t', rfl, hr⟩ := ih hn.2 h
        exact ⟨t', by rw [hdc, List.cons_append], hr⟩
      · obtain ⟨name, -, hname, -⟩ := markup_spec (hms hf)
        rw [hd, hname] at h
        exact absurd (List.cons.inj h).1 hn.1

private theorem encodeWith_name (hms : ms ⊆ markup) {name : Text} (hn : name ∈ tokenNames) :
    encodeWith ms (name ++ [mark]) = name ++ [mark] := by
  refine encodeWith_of_not_mem fun e he hm => ?_
  obtain ⟨-, -, -, -, hmark, hu⟩ := markup_spec (hms he)
  rcases List.mem_append.1 hm with hm | hm
  · exact not_mem_name hn hu hm
  · exact hmark (List.mem_singleton.1 hm)

section

variable (hms : e :: ms ⊆ markup) (hd : ∀ f ∈ ms, f.1 ≠ e.1)
include hms hd

private theorem misreading_at_mark {c : Char} {a r : Text} (hc : codeOf ms c = a ++ mark :: r)
    (hp : e.2 <+: mark :: encodeWith [e] (r ++ encodeWith ms t)) :
    ∃ p ∈ misreadings e ms, p <+: c :: t := by
  obtain ⟨name, hn, hname, -⟩ := markup_spec (hms List.mem_cons_self)
  have hms' : ms ⊆ markup := fun f hf => hms (List.mem_cons_of_mem e hf)
  have hx : c ∈ marked ms := mem_marked (by simp [hc])
  rw [hname, List.cons_prefix_cons] at hp
  obtain ⟨-, z, hz⟩ := hp
  rw [List.append_assoc, List.singleton_append] at hz
  rcases cut_at_mark hms' hc with ⟨f, hf, name', hn', hname', rfl⟩ | rfl
  · rw [encodeWith_append, encodeWith_name (by simpa using hms List.mem_cons_self) hn',
      List.append_assoc] at hz
    have hlen : name.length = name'.length := by rw [(name_spec hn).1, (name_spec hn').1]
    have hfe : f = e := markup_inj (hms' hf) (hms List.mem_cons_self) (by
      rw [hname, hname', (List.append_inj hz hlen).1])
    exact absurd (congrArg Prod.fst hfe) (hd f hf)
  · rw [List.nil_append, encodeWith_encodeWith hms hd] at hz
    obtain ⟨t', rfl, ht'⟩ := exists_of_front hms (not_mem_name hn (by decide)) hz.symm
    cases t' with
    | nil => cases ht'
    | cons y t' =>
      have hy : y ∈ marked (e :: ms) := by
        refine mem_marked ?_
        rw [encodeWith_cons] at ht'
        obtain ⟨d, w, hw⟩ := List.exists_cons_of_ne_nil (codeOf_ne_nil hms y)
        rw [hw] at ht' ⊢
        exact (List.cons.inj ht').1 ▸ List.mem_cons_self
      exact ⟨_, (mem_misreadings hname).2 ⟨c, hx, y, hy, rfl⟩, t', by simp⟩

/-- The token of `e` starts elsewhere than where it stands for the markup exactly in texts with one of
the misreadings. -/
theorem exists_misreading_iff :
    (∃ a d b, encodeWith ms t = a ++ d :: b ∧ d ≠ e.1 ∧ e.2 <+: encodeWith [e] (d :: b)) ↔
      ∃ p ∈ misreadings e ms, p <:+: t := by
  obtain ⟨name, hn, hname, -, hmark, -⟩ := markup_spec (hms List.mem_cons_self)
  have hms' : ms ⊆ markup := fun f hf => hms (List.mem_cons_of_mem e hf)
  constructor
  · rintro ⟨a, d, b, ht, hde, hp⟩
    rw [encodeWith_cons, codeOf_of_ne (by simpa using Ne.symm hde), List.singleton_append] at hp
    obtain rfl : mark = d := (List.cons_prefix_cons.1 (hname ▸ hp)).1
    induction t generalizing a with
    | nil => simp [encodeWith] at ht
    | cons c t ih =>
      have htail (h : ∃ p ∈ misreadings e ms, p <:+: t) : ∃ p ∈ misreadings e ms, p <:+: c :: t :=
        h.imp fun p hp => ⟨hp.1, hp.2.trans (List.suffix_cons c t).isInfix⟩
      rw [encodeWith_cons] at ht
      rcases List.append_eq_append_iff.1 ht with ⟨a₂, -, ht⟩ | ⟨r, hc, hb⟩
      · exact htail (ih a₂ ht)
      · cases r with
        | nil => exact htail (ih [] hb.symm)
        | cons d r =>
          rw [List.cons_append, List.cons.injEq] at hb
          obtain ⟨rfl, rfl⟩ := hb
          obtain ⟨p, hp, hin⟩ := misreading_at_mark hms hd hc hp
          exact ⟨p, hp, hin.isInfix⟩
  · rintro ⟨p, hp, a, b, rfl⟩
    obtain ⟨x, hx, y, hy, rfl⟩ := (mem_misreadings hname).1 hp
    obtain ⟨z, -, hz, -⟩ := exists_codeOf_marked hms' hx
    obtain ⟨-, w, -, hw⟩ := exists_codeOf_marked hms hy
    refine ⟨encodeWith ms a ++ z, mark, encodeWith ms (name ++ y :: b), ?_, hmark.symm, ?_⟩
    · have hsplit : a ++ x :: (name ++ [y]) ++ b = a ++ x :: (name ++ y :: b) := by simp
      rw [hsplit, encodeWith_append, encodeWith_cons, hz]
      simp
    · have hself : encodeWith (e :: ms) name = name :=
        encodeWith_of_not_mem fun f hf => by
          obtain ⟨-, -, -, -, -, hu⟩ := markup_spec (hms hf)
          exact not_mem_name hn hu
      rw [encodeWith_cons, codeOf_of_ne (by simpa using hmark), encodeWith_encodeWith hms hd,
        encodeWith_append, encodeWith_cons, hself, hw, hname]
      exact ⟨w ++ encodeWith (e :: ms) b, by simp⟩

private theorem replaceAll_encodeWith_eq_iff :
    Text.replaceAll e.2 [e.1] (encodeWith [e] (encodeWith ms t)) = encodeWith ms t ↔
      ∀ p ∈ misreadings e ms, ¬ p <:+: t := by
  have hno := not_congr (exists_misreading_iff (t := t) hms hd)
  rw [replaceAll_encodeWith_iff (markup_ne_nil (hms List.mem_cons_self))]
  simp only [not_exists, not_and] at hno
  exact hno

end

/-- The texts that decoding reads wrongly: for each kind of markup those that read like its token
while the kinds behind it are still written as tokens. -/
def misread : List (Char × Text) → List Text
  | [] => []
  | e :: ms => misreadings e ms ++ misread ms

/-- Whether decoding finds nothing in the code of a text that it would read wrongly. -/
def isDecodable (t : Text) : Bool := (misread markup).all fun p => !Text.includes p t

private theorem isDecodable_iff : isDecodable t ↔ ∀ p ∈ misread markup, ¬ p <:+: t := by
  simp [isDecodable, Text.includes_eq_false_iff]

private theorem decodeWith_encodeWith_iff (hms : ms ⊆ markup)
    (hd : ms.Pairwise fun e f => f.1 ≠ e.1) :
    decodeWith ms (encodeWith ms t) = t ↔ ∀ p ∈ misread ms, ¬ p <:+: t := by
  induction ms with
  | nil => simp [misread, decodeWith, encodeWith_nil]
  | cons e ms ih =>
    obtain ⟨he, hd'⟩ := List.pairwise_cons.1 hd
    rw [decodeWith_encodeWith_cons_iff hms hd, replaceAll_encodeWith_eq_iff hms he,
      ih (fun f hf => hms (List.mem_cons_of_mem e hf)) hd', misread, List.forall_mem_append]

/-- Decoding gives back from their codes exactly the texts without anything that it misreads. -/
theorem decode_encode_iff : decode (encode t) = t ↔ isDecodable t := by
  rw [isDecodable_iff]
  exact decodeWith_encodeWith_iff (List.Subset.refl _) (by decide)

example : decode (encode "\x7dOCBR\x7b".toList) ≠ "\x7dOCBR\x7b".toList := by decide

theorem isDecodable_of_isInfix {u : Text} (h : isDecodable u) (ht : t <:+: u) :
    isDecodable t :=
  isDecodable_iff.2 fun p hp hin => isDecodable_iff.1 h p hp (hin.trans ht)

/-- Without the letters of a token nothing reads like one. -/
theorem isDecodable_of_isPlain (h : isPlain t) : isDecodable t := by
  refine isDecodable_iff.2 fun p hp hin => ?_
  have hall : (misread markup).all fun p => tokenNames.any fun name => Text.includes name p := by
    decide
  obtain ⟨name, hn, hi⟩ := List.any_eq_true.1 (List.all_eq_true.1 hall p hp)
  exact not_infix_of_isPlain h hn ((Text.includes_iff.1 hi).trans hin)

/-- Writing markup as tokens can be undone in a text without the letters of tokens. -/
theorem decode_encode (h : isPlain t) : decode (encode t) = t :=
  decode_encode_iff.2 (isDecodable_of_isPlain h)

/-- A character that nothing decoding reads is made of: no letter of a token, and none that is
written with marks. -/
def isFree (c : Char) : Bool := !c.isUpper && !(marked markup).contains c

private theorem misread_ne_nil {p : Text} (h : p ∈ misread markup) : p ≠ [] := by
  have hall : (misread markup).all fun p => p != [] := by decide
  simpa using List.all_eq_true.1 hall p h

private theorem not_mem_misread {p : Text} (h : p ∈ misread markup) {c : Char} (hc : isFree c) :
    c ∉ p := by
  have hall : (misread markup).all fun p => p.all fun c => !isFree c := by decide
  intro hm
  simpa [hc] using List.all_eq_true.1 (List.all_eq_true.1 hall p h) c hm

section

variable {g t u : Text}

theorem isDecodable_append_left (hg : ∀ c ∈ g, isFree c) (ht : isDecodable t) :
    isDecodable (g ++ t) := by
  refine isDecodable_iff.2 fun p hp hin => isDecodable_iff.1 ht p hp ?_
  exact Text.infix_of_append_left (misread_ne_nil hp) (fun c hc => not_mem_misread hp (hg c hc)) hin

theorem isDecodable_append_right (hg : ∀ c ∈ g, isFree c) (ht : isDecodable t) :
    isDecodable (t ++ g) := by
  refine isDecodable_iff.2 fun p hp hin => isDecodable_iff.1 ht p hp ?_
  exact Text.infix_of_append_right (misread_ne_nil hp) (fun c hc => not_mem_misread hp (hg c hc)) hin

/-- Texts with a free character between them are decoded each on its own. -/
theorem isDecodable_append_cons {c : Char} (hc : isFree c) (ht : isDecodable t)
    (hu : isDecodable u) : isDecodable (t ++ c :: u) := by
  refine isDecodable_iff.2 fun p hp hin => ?_
  rcases Text.infix_append_cons_of_not_mem (not_mem_misread hp hc) hin with hin | hin
  · exact isDecodable_iff.1 ht p hp hin
  · exact isDecodable_iff.1 hu p hp hin

end

end Entry
end Javadoc
