import Javadoc.Proofs.Text.Line
import Javadoc.Sync.Entry

/-! Writing the markup of comments as tokens: the tokens are a prefix code, and the code of a text is
made of the codes of its lines. -/
namespace Javadoc

namespace Entry

def tokenNames : List Text := ["OCBR".toList, "CCBR".toList, "STRX".toList]

/-- Whether a text holds neither the mark nor the letters of a token. -/
def isPlain (t : Text) : Bool :=
  !t.contains mark && tokenNames.all fun name => !Text.includes name t

theorem not_mem_of_isPlain {t : Text} (h : isPlain t) : mark ∉ t := by
  simp only [isPlain, Bool.and_eq_true, Bool.not_eq_true'] at h
  simpa using h.1

theorem not_infix_of_isPlain {t name : Text} (h : isPlain t) (hn : name ∈ tokenNames) :
    ¬ name <:+: t := by
  simp only [isPlain, Bool.and_eq_true, List.all_eq_true, Bool.not_eq_true',
    Text.includes_eq_false_iff] at h
  exact h.2 name hn

theorem isPlain_iff {t : Text} :
    isPlain t ↔ mark ∉ t ∧ ∀ name ∈ tokenNames, ¬ name <:+: t := by
  simp [isPlain, Text.includes_eq_false_iff]

theorem isPlain_of_isInfix {t u : Text} (h : isPlain u) (ht : t <:+: u) : isPlain t :=
  isPlain_iff.2 ⟨fun hm => not_mem_of_isPlain h (ht.subset hm),
    fun _ hn hi => not_infix_of_isPlain h hn (hi.trans ht)⟩

def codeOf (ms : List (Char × Text)) (c : Char) : Text :=
  match ms.find? fun e => e.1 = c with
  | some (_, token) => token
  | none => [c]

def encodeWith (ms : List (Char × Text)) (t : Text) : Text := t.flatMap (codeOf ms)

theorem encode_eq (t : Text) : encode t = encodeWith markup t := rfl

theorem encodeWith_nil (t : Text) : encodeWith [] t = t := by
  have h : codeOf [] = fun c => [c] := rfl
  rw [encodeWith, h, List.flatMap_singleton']

/-- A token is a mark, capital letters, and a mark; it stands for something else. -/
theorem markup_spec {e : Char × Text} (h : e ∈ markup) :
    ∃ name ∈ tokenNames, e.2 = mark :: (name ++ [mark]) ∧ e.1 ≠ '\n' ∧ e.1 ≠ mark ∧
      e.1.isUpper = false := by
  have hall : markup.all fun e => tokenNames.any fun name =>
      e.2 == mark :: (name ++ [mark]) && e.1 != '\n' && e.1 != mark && !e.1.isUpper := by decide
  obtain ⟨name, hn, he⟩ := List.any_eq_true.1 (List.all_eq_true.1 hall e h)
  simp only [Bool.and_eq_true, beq_iff_eq, bne_iff_ne, Bool.not_eq_true'] at he
  exact ⟨name, hn, he.1.1.1, he.1.1.2, he.1.2, he.2⟩

theorem name_spec {name : Text} (h : name ∈ tokenNames) :
    name.length = 4 ∧ ∀ c ∈ name, c.isUpper := by
  have hall : tokenNames.all fun name => name.length == 4 && name.all Char.isUpper := by decide
  have hn := List.all_eq_true.1 hall name h
  simp only [Bool.and_eq_true, beq_iff_eq, List.all_eq_true] at hn
  exact hn

theorem not_mem_name {name : Text} (h : name ∈ tokenNames) {c : Char} (hc : c.isUpper = false) :
    c ∉ name := fun hm => by simp [(name_spec h).2 c hm] at hc

theorem markup_inj {e f : Char × Text} (he : e ∈ markup) (hf : f ∈ markup)
    (h : e.2.take 2 = f.2.take 2) : e = f := by
  have hall : markup.all fun e => markup.all fun f =>
      e.2.take 2 != f.2.take 2 || (e.1 == f.1 && e.2 == f.2) := by decide
  have := List.all_eq_true.1 (List.all_eq_true.1 hall e he) f hf
  simp only [h, bne_self_eq_false, Bool.false_or, Bool.and_eq_true, beq_iff_eq] at this
  exact Prod.ext this.1 this.2

variable {ms : List (Char × Text)} {e : Char × Text} {t : Text}

theorem codeOf_cases (ms : List (Char × Text)) (c : Char) :
    codeOf ms c = [c] ∨ ∃ e ∈ ms, e.1 = c ∧ codeOf ms c = e.2 := by
  unfold codeOf
  split
  · next e tok he =>
    exact .inr ⟨_, List.mem_of_find?_eq_some he, by simpa using List.find?_some he, rfl⟩
  · exact .inl rfl

theorem encodeWith_cons (ms : List (Char × Text)) (c : Char) (t : Text) :
    encodeWith ms (c :: t) = codeOf ms c ++ encodeWith ms t := by
  simp [encodeWith]

theorem encodeWith_append (ms : List (Char × Text)) (t u : Text) :
    encodeWith ms (t ++ u) = encodeWith ms t ++ encodeWith ms u := by
  simp [encodeWith]

theorem codeOf_of_ne {c : Char} (h : ∀ e ∈ ms, e.1 ≠ c) : codeOf ms c = [c] := by
  rcases codeOf_cases ms c with hc | ⟨e, he, hec, -⟩
  · exact hc
  · exact absurd hec (h e he)

theorem codeOf_self (e : Char × Text) (ms : List (Char × Text)) : codeOf (e :: ms) e.1 = e.2 := by
  simp [codeOf]

theorem encodeWith_of_not_mem (h : ∀ e ∈ ms, e.1 ∉ t) : encodeWith ms t = t := by
  induction t with
  | nil => rfl
  | cons c t ih =>
    rw [encodeWith_cons, codeOf_of_ne fun e he hc => h e he (hc ▸ List.mem_cons_self),
      ih fun e he hm => h e he (List.mem_cons_of_mem c hm), List.singleton_append]

/-- No token holds a character that tokens stand for. -/
theorem not_mem_token {f : Char × Text} (he : e ∈ markup) (hf : f ∈ markup) : e.1 ∉ f.2 := by
  have hall : markup.all fun e => markup.all fun f => !f.2.contains e.1 := by decide
  simpa using List.all_eq_true.1 (List.all_eq_true.1 hall e he) f hf

theorem codeOf_ne_nil (hms : ms ⊆ markup) (c : Char) : codeOf ms c ≠ [] := by
  rcases codeOf_cases ms c with h | ⟨e, he, -, h⟩
  · simp [h]
  · obtain ⟨name, -, hn, -⟩ := markup_spec (hms he)
    simp [h, hn]

theorem encode_append (t u : Text) : encode (t ++ u) = encode t ++ encode u := by
  simp [encode]

/-- Text without markup is written as it is. -/
theorem encode_of_not_mem {t : Text} (h : ∀ e ∈ markup, e.1 ∉ t) : encode t = t :=
  encodeWith_of_not_mem h

private theorem newline_mem_encodeChar {c : Char} (h : '\n' ∈ encodeChar c) : c = '\n' := by
  rcases codeOf_cases markup c with hc | ⟨e, he, rfl, hc⟩
  · have : encodeChar c = [c] := hc
    simpa [this, eq_comm] using h
  · obtain ⟨name, hn, hname, -⟩ := markup_spec he
    have : encodeChar e.1 = e.2 := hc
    rw [this, hname] at h
    simp only [List.mem_cons, List.mem_append, List.not_mem_nil, or_false] at h
    rcases h with h | h | h
    · cases h
    · exact absurd h (not_mem_name hn (by decide))
    · cases h

/-- Encoding goes line by line. -/
theorem splitLines_encode (t : Text) :
    Text.splitLines (encode t) = (Text.splitLines t).map encode := by
  induction t with
  | nil => rfl
  | cons c t ih =>
    have hcons : encode (c :: t) = encodeChar c ++ encode t := by simp [encode]
    rw [hcons]
    by_cases hc : c = '\n'
    · subst hc
      have : encodeChar '\n' = ['\n'] := by decide
      rw [this, List.singleton_append, Text.splitLines_newline, Text.splitLines_newline, ih]
      rfl
    · obtain ⟨l, ls, h₁, h₂⟩ := Text.splitLines_append_of_not_mem
        (fun h => hc (newline_mem_encodeChar h)) (encode t)
      obtain ⟨m, ms, h₃, h₄⟩ := Text.splitLines_cons hc t
      rw [h₂, h₄]
      rw [h₁, h₃, List.map_cons, List.cons.injEq] at ih
      rw [ih.1, ih.2, List.map_cons]
      simp [encode]

theorem joinLines_map_encode (ls : List Text) :
    Text.joinLines (ls.map encode) = encode (Text.joinLines ls) := by
  induction ls with
  | nil => rfl
  | cons l ls ih =>
    cases ls with
    | nil => rfl
    | cons m ms =>
      have hcons (t : Text) : encode ('\n' :: t) = '\n' :: encode t := rfl
      rw [List.map_cons, List.map_cons, Text.joinLines_cons_cons, ← List.map_cons, ih,
        Text.joinLines_cons_cons, encode_append, hcons]

end Entry
end Javadoc
