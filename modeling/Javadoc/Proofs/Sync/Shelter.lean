import Javadoc.Proofs.Java.Reading
import Javadoc.Proofs.Sync.Renewal

/-! Entries inside comments. When every line of a stretch of lexemes that is an entry lies in
comments, updating the stretch is updating each of these comments on its own. -/
namespace Javadoc

namespace Entry

open Java

def IsEntryOf (changes : List FieldChange) (line : Text) : Prop :=
  ∃ c ∈ changes, IsEntry c.field c.old line

def linesOf (cs : List (Char × Bool)) : List (List (Char × Bool)) :=
  cs.splitOnP fun c => c.1 == '\n'

def Sheltered (changes : List FieldChange) (cs : List (Char × Bool)) : Prop :=
  ∀ line ∈ linesOf cs, IsEntryOf changes (line.map Prod.fst) → ∀ c ∈ line, c.2

def tagged (b : Bool) (t : Text) : List (Char × Bool) := t.map (·, b)

def charsOf (ls : List (Lexeme × Bool)) : List (Char × Bool) :=
  ls.flatMap fun l => tagged l.2 l.1.text

@[simp] theorem map_fst_tagged (b : Bool) (t : Text) : (tagged b t).map Prod.fst = t := by
  simp [tagged, Function.comp_def]

private theorem tagged_append (b : Bool) (t u : Text) :
    tagged b (t ++ u) = tagged b t ++ tagged b u := by
  simp [tagged]

private theorem sheltered_append_newline {changes : List FieldChange} {a b : List (Char × Bool)}
    {t : Bool} :
    Sheltered changes (a ++ ('\n', t) :: b) ↔ Sheltered changes a ∧ Sheltered changes b := by
  rw [Sheltered, linesOf, List.splitOnP_append_cons a b rfl]
  simp only [List.forall_mem_append]
  rfl

private theorem linesOf_of_not_mem {cs : List (Char × Bool)} (h : '\n' ∉ cs.map Prod.fst) :
    linesOf cs = [cs] := by
  refine List.splitOnP_eq_singleton fun c hc => ?_
  have hne : c.1 ≠ '\n' := fun he => h (he ▸ List.mem_map_of_mem hc)
  simpa using hne

/-- Every line of a text without a line feed is the text. -/
theorem Sheltered.line {changes : List FieldChange} {cs : List (Char × Bool)}
    (h : Sheltered changes cs) (hn : '\n' ∉ cs.map Prod.fst)
    (he : IsEntryOf changes (cs.map Prod.fst)) : ∀ c ∈ cs, c.2 :=
  h cs (by rw [linesOf_of_not_mem hn]; exact List.mem_singleton_self cs) he

/-- Whether every line that an update would take for an entry consists of characters where entries may
stand. -/
def shelters (changes : List FieldChange) (cs : List (Char × Bool)) : Bool :=
  (linesOf cs).all fun line => line.all Prod.snd ||
    (isPlain (line.map Prod.fst) &&
      changes.all fun c => (updateLine? c (encode (line.map Prod.fst))).isNone)

variable {changes : List FieldChange} (hc : ∀ c ∈ changes, Sound c)

private theorem renewText_newline (changes : List FieldChange) (t u : Text) :
    renewText changes (t ++ '\n' :: u) = renewText changes t ++ '\n' :: renewText changes u := by
  rw [renewText, Text.splitLines_append_newline, List.map_append, Text.joinLines_append]
  · rfl
  · simpa using Text.splitLines_ne_nil t
  · simpa using Text.splitLines_ne_nil u

private theorem renewText_of_not_mem (changes : List FieldChange) {t : Text} (h : '\n' ∉ t) :
    renewText changes t = renew changes t := by
  rw [renewText, Text.splitLines_of_not_mem h]
  rfl

include hc

theorem sheltered_of_shelters {cs : List (Char × Bool)} (h : shelters changes cs) :
    Sheltered changes cs := by
  rintro line hline ⟨c, hm, he⟩
  have hline := List.all_eq_true.1 h line hline
  rw [Bool.or_eq_true, Bool.and_eq_true, List.all_eq_true, List.all_eq_true] at hline
  rcases hline with hall | ⟨hp, hno⟩
  · exact hall
  · have hs := hc c hm
    rw [← isSome_updateLine?_iff hs.name.encode (isDecodable_of_isPlain hs.name.1)
      (isDecodable_of_isPlain hs.old.1) (isDecodable_of_isPlain hp)] at he
    simp [Option.isNone_iff_eq_none.1 (hno c hm)] at he

private theorem renew_eq_self {line : Text} (hl : isPlain line)
    (h : ¬ IsEntryOf changes line) : renew changes line = line :=
  renew_of_not_isEntry (fun c hm => (hc c hm).readable) hl fun c hm he => h ⟨c, hm, he⟩

private theorem not_isEntryOf_of_slash (t : Text) : ¬ IsEntryOf changes ('/' :: t) := by
  rintro ⟨c, hm, he⟩
  obtain ⟨d, rest, h, hd⟩ := he.exists_cons (hc c hm).name
  exact hd (List.cons.inj h).1.symm

private theorem not_isEntryOf_nil : ¬ IsEntryOf changes [] := by
  rintro ⟨c, hm, he⟩
  obtain ⟨d, rest, h, -⟩ := he.exists_cons (hc c hm).name
  cases h

private theorem not_isEntryOf_of_close {line : Text} (h : ['*', '/'] <:+: line) :
    ¬ IsEntryOf changes line := fun ⟨c, hm, he⟩ => he.not_close (hc c hm).name (hc c hm).old h

/-- Where no entry may stand, nothing is renewed. -/
theorem renewText_unsheltered {t : Text} (ht : isPlain t)
    (hs : Sheltered changes (tagged false t)) : renewText changes t = t := by
  obtain ⟨n, hn⟩ : ∃ n, t.length ≤ n := ⟨_, Nat.le_refl _⟩
  have hfix {l : Text} (hl : isPlain l) (hn : '\n' ∉ l) (hs : Sheltered changes (tagged false l)) :
      renew changes l = l := by
    refine renew_eq_self hc hl fun he => ?_
    cases l with
    | nil => exact not_isEntryOf_nil hc he
    | cons c l =>
      have := hs.line (by simpa using hn) (by simpa using he) (c, false) (by simp [tagged])
      cases this
  induction n generalizing t with
  | zero =>
    obtain rfl : t = [] := List.length_eq_zero_iff.1 (by omega)
    rw [renewText_of_not_mem changes (by simp)]
    exact hfix ht (by simp) hs
  | succ n ih =>
    rcases Text.first_line_cases t with h | ⟨l, u, rfl, hl⟩
    · rw [renewText_of_not_mem changes h]
      exact hfix ht h hs
    · rw [tagged_append] at hs
      obtain ⟨hs₁, hs₂⟩ := sheltered_append_newline.1 hs
      rw [List.length_append, List.length_cons] at hn
      rw [renewText_newline, renewText_of_not_mem changes hl,
        hfix (isPlain_of_isInfix ht (List.prefix_append _ _).isInfix) hl hs₁,
        ih (isPlain_of_isInfix ht ⟨l ++ ['\n'], [], by simp⟩) hs₂ (by omega)]

omit hc in
def Blocked (changes : List FieldChange) (pre : List (Char × Bool)) : Prop :=
  pre = [] ∨ (∃ c ∈ pre, c.2 = false) ∨ ∀ t, ¬ IsEntryOf changes (pre.map Prod.fst ++ t)

def renewIf (changes : List FieldChange) (b : Bool) (t : Text) : Text :=
  if b then renewText changes t else t

private theorem renew_blocked {pre : List (Char × Bool)} (hb : Blocked changes pre) {b : Bool}
    {t : Text} (ht : b → ∃ u, t = '/' :: u) (hn : '\n' ∉ pre.map Prod.fst ++ t)
    (hs : Sheltered changes (pre ++ tagged b t)) (hp : isPlain (pre.map Prod.fst ++ t)) :
    renewText changes (pre.map Prod.fst ++ t) = pre.map Prod.fst ++ t := by
  rw [renewText_of_not_mem changes hn]
  refine renew_eq_self hc hp fun he => ?_
  have hall := hs.line (by simpa using hn) (by simpa using he)
  rcases hb with rfl | ⟨c, hm, hf⟩ | hno
  · cases b with
    | true =>
      obtain ⟨u, rfl⟩ := ht rfl
      exact not_isEntryOf_of_slash hc u he
    | false =>
      cases t with
      | nil => exact not_isEntryOf_nil hc he
      | cons c t => simpa using hall (c, false) (by simp [tagged])
  · simp [hall c (List.mem_append_left _ hm)] at hf
  · exact hno t he

private theorem renewIf_first {b : Bool} {l : Text} (hl : b → ∃ u, l = '/' :: u) (hn : '\n' ∉ l)
    (hp : isPlain l) : renewIf changes b l = l := by
  cases b with
  | false => rfl
  | true =>
    obtain ⟨u, rfl⟩ := hl rfl
    rw [renewIf, if_pos rfl, renewText_of_not_mem changes hn]
    exact renew_eq_self hc hp (not_isEntryOf_of_slash hc u)

omit hc in
private theorem slash_of_first_line {b : Bool} {l u : Text} (h : b → ∃ v, l ++ '\n' :: u = '/' :: v)
    (hb : b) : ∃ v, l = '/' :: v := by
  obtain ⟨v, hv⟩ := h hb
  cases l with
  | nil => cases hv
  | cons c l => exact ⟨l, by rw [(List.cons.inj hv).1]⟩

private theorem renewText_blocked {pre : List (Char × Bool)} (hb : Blocked changes pre) {b : Bool}
    {t : Text} (ht : b → ∃ u, t = '/' :: u) (hn : '\n' ∉ pre.map Prod.fst)
    (hs : Sheltered changes (pre ++ tagged b t)) (hp : isPlain (pre.map Prod.fst ++ t)) :
    renewText changes (pre.map Prod.fst ++ t) = pre.map Prod.fst ++ renewIf changes b t := by
  have hin {l u : Text} (h : isPlain (l ++ u)) : isPlain u :=
    isPlain_of_isInfix h (List.suffix_append _ _).isInfix
  rcases Text.first_line_cases t with h | ⟨l, u, rfl, hl⟩
  · rw [renew_blocked hc hb ht (by simp [hn, h]) hs hp, renewIf_first hc ht h (hin hp)]
  · have hl' := slash_of_first_line ht
    rw [tagged_append, ← List.append_assoc] at hs
    obtain ⟨hs₁, hs₂⟩ := sheltered_append_newline.1 hs
    rw [← List.append_assoc] at hp ⊢
    have hp₁ : isPlain (pre.map Prod.fst ++ l) :=
      isPlain_of_isInfix hp (List.prefix_append _ _).isInfix
    have hp₂ : isPlain u := isPlain_of_isInfix hp ⟨pre.map Prod.fst ++ l ++ ['\n'], [], by simp⟩
    rw [renewText_newline, renew_blocked hc hb hl' (by simp [hn, hl]) hs₁ hp₁, List.append_assoc]
    cases b with
    | false => rw [renewText_unsheltered hc hp₂ hs₂]; rfl
    | true =>
      have := renewIf_first hc hl' hl (hin hp₁)
      rw [renewIf, if_pos rfl] at this
      rw [renewIf, if_pos rfl, renewText_newline, this]

omit hc in
private theorem close_infix_line {l : Lexeme} (hl : l.Closed) {u v : Text}
    (h : l.text = u ++ '\n' :: v) : ['*', '/'] <:+: v := by
  obtain ⟨-, inside, ht, -⟩ := hl
  rw [ht] at h
  have hsuf : ['*', '/'] <:+ '\n' :: v := by
    have hend : ['*', '/'] <:+ u ++ '\n' :: v := ⟨'/' :: '*' :: inside, by rw [← h]; simp⟩
    refine List.suffix_of_suffix_length_le hend (List.suffix_append _ _) ?_
    cases v with
    | nil =>
      have := congrArg List.getLast? h
      simp [List.getLast?_cons, List.getLast?_append] at this
    | cons c v => simp
  rcases List.suffix_cons_iff.1 hsuf with h | h
  · cases h
  · exact h.isInfix

private theorem blocked_append {l : Lexeme} {b : Bool} (hne : l.text ≠ []) (hl : b → l.Closed)
    (pre : List (Char × Bool)) : Blocked changes (pre ++ tagged b l.text) := by
  refine .inr ?_
  cases b with
  | false =>
    obtain ⟨c, cs, hcs⟩ := List.exists_cons_of_ne_nil hne
    exact .inl ⟨(c, false), List.mem_append_right _ (by simp [hcs, tagged]), rfl⟩
  | true =>
    obtain ⟨-, inside, ht, -⟩ := hl rfl
    refine .inr fun t => not_isEntryOf_of_close hc ?_
    rw [List.map_append, map_fst_tagged, ht]
    exact ⟨pre.map Prod.fst ++ '/' :: '*' :: inside, t, by simp⟩

private theorem blocked_last {l : Lexeme} {b : Bool} (hl : b → l.Closed) {u v : Text}
    (h : l.text = u ++ '\n' :: v) : Blocked changes (tagged b v) := by
  cases b with
  | true =>
    refine .inr (.inr fun t => not_isEntryOf_of_close hc ?_)
    rw [map_fst_tagged]
    exact (close_infix_line (hl rfl) h).trans (List.prefix_append _ _).isInfix
  | false =>
    cases v with
    | nil => exact .inl rfl
    | cons c v => exact .inr (.inl ⟨(c, false), by simp [tagged], rfl⟩)

private theorem renewIf_last {l : Lexeme} {b : Bool} (hl : b → l.Closed) {u v : Text}
    (h : l.text = u ++ '\n' :: v) (hn : '\n' ∉ v) (hp : isPlain v) :
    renewIf changes b (u ++ '\n' :: v) = renewIf changes b u ++ '\n' :: v := by
  cases b with
  | false => rfl
  | true =>
    rw [renewIf, if_pos rfl, renewText_newline, renewText_of_not_mem changes hn,
      renew_eq_self hc hp (not_isEntryOf_of_close hc (close_infix_line (hl rfl) h))]
    rfl

/-- Updating a stretch updates each of the comments in it that may hold entries. -/
theorem renewText_charsOf (ls : List (Lexeme × Bool)) (pre : List (Char × Bool))
    (hl : ∀ l ∈ ls, l.1.text ≠ [] ∧ (l.2 → l.1.Closed)) (hb : Blocked changes pre)
    (hn : '\n' ∉ pre.map Prod.fst) (hs : Sheltered changes (pre ++ charsOf ls))
    (hp : isPlain (pre.map Prod.fst ++ ls.flatMap (·.1.text))) :
    renewText changes (pre.map Prod.fst ++ ls.flatMap (·.1.text)) =
      pre.map Prod.fst ++ ls.flatMap fun l => renewIf changes l.2 l.1.text := by
  induction ls generalizing pre with
  | nil =>
    have := renewText_blocked hc hb (b := false) (t := []) (by simp) hn
      (by simpa [charsOf, tagged] using hs) (by simpa using hp)
    simpa [renewIf] using this
  | cons l ls ih =>
    obtain ⟨l, b⟩ := l
    obtain ⟨hne, hclosed⟩ := hl _ List.mem_cons_self
    have hl' := fun m hm => hl m (List.mem_cons_of_mem _ hm)
    have hchars : charsOf ((l, b) :: ls) = tagged b l.text ++ charsOf ls := rfl
    simp only at hne hclosed
    rw [hchars] at hs
    rw [List.flatMap_cons] at hp ⊢
    rw [List.flatMap_cons]
    have hslash (hbt : b) : ∃ u, l.text = '/' :: u := by
      obtain ⟨-, inside, ht, -⟩ := hclosed hbt
      exact ⟨_, ht⟩
    rcases Text.last_line_cases l.text with h | ⟨u, v, huv, hv⟩
    -- the line goes on behind the lexeme
    · have hfst : (pre ++ tagged b l.text).map Prod.fst = pre.map Prod.fst ++ l.text := by simp
      have hpl : isPlain l.text := isPlain_of_isInfix hp ⟨pre.map Prod.fst, _, by
        rw [List.append_assoc]⟩
      rw [← List.append_assoc, ← hfst] at hp ⊢
      rw [ih (pre ++ tagged b l.text) hl' (blocked_append hc hne hclosed pre) (by simp [hn, h])
        (by simpa [List.append_assoc] using hs) hp, hfst, List.append_assoc,
        renewIf_first hc hslash h hpl]
    -- the last line of the lexeme is the start of the next one
    · rw [huv] at hp hs hslash ⊢
      have hs : Sheltered changes
          ((pre ++ tagged b u) ++ ('\n', b) :: (tagged b v ++ charsOf ls)) := by
        rw [tagged_append, List.append_assoc] at hs
        simpa [tagged, List.append_assoc] using hs
      obtain ⟨hs₁, hs₂⟩ := sheltered_append_newline.1 hs
      have hassoc (x y z w : Text) : x ++ (y ++ '\n' :: z ++ w) = (x ++ y) ++ '\n' :: (z ++ w) := by
        simp
      rw [hassoc] at hp ⊢
      have hp₁ : isPlain (pre.map Prod.fst ++ u) :=
        isPlain_of_isInfix hp (List.prefix_append _ _).isInfix
      have hp₂ : isPlain (v ++ ls.flatMap (·.1.text)) :=
        isPlain_of_isInfix hp ⟨pre.map Prod.fst ++ u ++ ['\n'], [], by simp⟩
      have ih := ih (tagged b v) hl' (blocked_last hc hclosed huv) (by simpa using hv) hs₂
        (by simpa using hp₂)
      rw [map_fst_tagged] at ih
      rw [renewText_newline, renewText_blocked hc hb (slash_of_first_line hslash) hn hs₁ hp₁, ih,
        renewIf_last hc hclosed huv hv (isPlain_of_isInfix hp₂ (List.prefix_append v _).isInfix)]
      simp

private theorem not_close_renewText {t : Text} (ht : isPlain t) (h : ¬ ['*', '/'] <:+: t) :
    ¬ ['*', '/'] <:+: renewText changes t := by
  rw [renewText, Text.infix_joinLines_iff (by simp) (by simp)]
  rintro ⟨l, hl, hin⟩
  obtain ⟨m, hm, rfl⟩ := List.mem_map.1 hl
  have hinf := Text.infix_of_mem_splitLines hm
  rcases renew_cases hc (isPlain_of_isInfix ht hinf) (Text.not_mem_of_mem_splitLines hm) with
    he | ⟨-, hno⟩
  · exact h ((he ▸ hin).trans hinf)
  · exact hno hin

omit hc in
private theorem docStart_isPrefix {l u v : Text}
    (h : Comment.docStart <+: l ++ '\n' :: u) : Comment.docStart <+: l ++ '\n' :: v := by
  have hlen : 3 ≤ l.length := by
    by_contra hlt
    obtain ⟨w, hw⟩ := h
    have hget := congrArg (·[l.length]?) hw
    rw [List.getElem?_append_right (Nat.le_refl _), Nat.sub_self,
      List.getElem?_append_left (by simp [Comment.docStart]; omega)] at hget
    have hmem : '\n' ∈ Comment.docStart := List.mem_of_getElem? hget
    exact absurd hmem (by decide)
  have hp : Comment.docStart <+: l :=
    List.prefix_of_prefix_length_le h (List.prefix_append _ _) hlen
  exact hp.trans (List.prefix_append _ _)

private theorem exists_rest_renewText {r : Text} (hp : isPlain (r ++ ['*', '/']))
    (hno : ¬ ['*', '/'] <:+: r ++ ['*']) :
    ∃ r', renewText changes (r ++ ['*', '/']) = r' ++ ['*', '/'] ∧
      ¬ ['*', '/'] <:+: r' ++ ['*'] := by
  have hlast {v : Text} (hv : '\n' ∉ v) (hp : isPlain (v ++ ['*', '/'])) :
      renewText changes (v ++ ['*', '/']) = v ++ ['*', '/'] := by
    rw [renewText_of_not_mem changes (by simpa using hv)]
    exact renew_eq_self hc hp (not_isEntryOf_of_close hc (List.suffix_append _ _).isInfix)
  rcases Text.last_line_cases r with h | ⟨m, v, rfl, hv⟩
  · exact ⟨r, hlast h hp, hno⟩
  · rw [List.append_assoc, List.cons_append] at hp hno ⊢
    have hpm : isPlain m := isPlain_of_isInfix hp (List.prefix_append _ _).isInfix
    have hpv : isPlain (v ++ ['*', '/']) := isPlain_of_isInfix hp ⟨m ++ ['\n'], [], by simp⟩
    refine ⟨renewText changes m ++ '\n' :: v, ?_, fun h => ?_⟩
    · rw [renewText_newline, hlast hv hpv, List.append_assoc, List.cons_append]
    · rw [List.append_assoc, List.cons_append] at h
      rcases Text.infix_append_cons_of_not_mem (by simp) h with h | h
      · exact not_close_renewText hc hpm
          (fun h => hno (h.trans (List.prefix_append _ _).isInfix)) h
      · exact hno (h.trans ⟨m ++ ['\n'], [], by simp⟩)

/-- A block comment is one after an update, and a documentation comment if it was one. -/
theorem closed_renewText {l : Lexeme} (hl : l.Closed) (hp : isPlain l.text) :
    Lexeme.Closed { l with text := renewText changes l.text } ∧
      (Comment.docStart <+: renewText changes l.text ↔ Comment.docStart <+: l.text) := by
  obtain ⟨hk, inside, ht, hno⟩ := id hl
  rcases Text.first_line_cases inside with h | ⟨i, r, rfl, hi⟩
  · have hn : '\n' ∉ l.text := by
      rw [ht]
      simpa using h
    have he : renewText changes l.text = l.text := by
      rw [renewText_of_not_mem changes hn]
      exact renew_eq_self hc hp (by rw [ht]; exact not_isEntryOf_of_slash hc _)
    rw [he]
    exact ⟨hl, Iff.rfl⟩
  · have htext : l.text = ('/' :: '*' :: i) ++ '\n' :: (r ++ ['*', '/']) := by simp [ht]
    have hfirst : '\n' ∉ '/' :: '*' :: i := by simpa using hi
    rw [htext] at hp
    have hp₁ : isPlain ('/' :: '*' :: i) := isPlain_of_isInfix hp (List.prefix_append _ _).isInfix
    have hp₂ : isPlain (r ++ ['*', '/']) :=
      isPlain_of_isInfix hp ⟨'/' :: '*' :: i ++ ['\n'], [], by simp⟩
    have hrenew : renewText changes l.text =
        ('/' :: '*' :: i) ++ '\n' :: renewText changes (r ++ ['*', '/']) := by
      rw [htext, renewText_newline, renewText_of_not_mem changes hfirst,
        renew_eq_self hc hp₁ (not_isEntryOf_of_slash hc _)]
    have hr : ¬ ['*', '/'] <:+: r ++ ['*'] := fun h => hno (h.trans ⟨i ++ ['\n'], [], by simp⟩)
    obtain ⟨r', hr', hno'⟩ := exists_rest_renewText hc hp₂ hr
    refine ⟨⟨hk, i ++ '\n' :: r', ?_, fun h => ?_⟩, ?_⟩
    · rw [hrenew, hr']
      simp
    · rw [List.append_assoc, List.cons_append] at h
      rcases Text.infix_append_cons_of_not_mem (by simp) h with h | h
      · exact hno (h.trans ⟨[], '\n' :: r ++ ['*'], by simp⟩)
      · exact hno' h
    · rw [hrenew, htext]
      exact ⟨docStart_isPrefix, docStart_isPrefix⟩

end Entry
end Javadoc
