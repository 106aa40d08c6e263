import Javadoc.Template.Assignment
import Javadoc.Proofs.Text.Trim
import Mathlib.Data.List.Infix
import Mathlib.Data.List.Pairwise
import Mathlib.Tactic.IntervalCases

/-! The assignments that tell which field a setter assigns. The search goes on behind the character
that follows the equals sign of an assignment, so an assignment that starts there is not heard; all
others are, and of them the first that names a field decides. -/
namespace Javadoc.Assignment
open Text

/-- An assignment as it is written: a word, blanks, an equals sign, and a character behind it that
is no second one. -/
structure Plain where
  word : Text
  gap : Text
  next : Char
  word_ne : word ≠ []
  isWord : ∀ c ∈ word, Text.isWord c
  isBlank : ∀ c ∈ gap, Text.isBlank c
  single : next ≠ '='

def Plain.text (a : Plain) : Text := a.word ++ (a.gap ++ ['=', a.next])

/-- Whether an assignment starts in a text behind the first `start` characters. The character before
it neither belongs to a word nor selects a member. -/
def AssignedAt (body : Text) (start : Nat) (a : Plain) : Prop :=
  ∃ before rest, body = before ++ (a.text ++ rest) ∧ before.length = start ∧
    ∀ c ∈ before.getLast?, isWord c = false ∧ c ≠ '.'

/-- An assignment is heard unless it starts in the reach of one that is heard itself: not behind the
character that follows its equals sign, and one more. -/
def Heard (body : Text) (start : Nat) : Prop :=
  (∃ a, AssignedAt body start a) ∧ ∀ earlier, (_h : earlier < start) → Heard body earlier →
    ∀ a, AssignedAt body earlier a → earlier + a.text.length < start
termination_by start

section Word

def blankNumbers : List Nat :=
  [0x09, 0x0A, 0x0B, 0x0C, 0x0D, 0x20, 0x85, 0xA0, 0x1680, 0x2000, 0x2001, 0x2002, 0x2003, 0x2004,
    0x2005, 0x2006, 0x2007, 0x2008, 0x2009, 0x200A, 0x2028, 0x2029, 0x202F, 0x205F, 0x3000]

private theorem toNat_mem_blankNumbers {c : Char} (h : isBlank c) : c.toNat ∈ blankNumbers := by
  simp only [isBlank, Bool.or_eq_true, Bool.and_eq_true, decide_eq_true_eq, beq_iff_eq] at h
  simp only [blankNumbers, List.mem_cons, List.not_mem_nil, or_false]
  omega

/-- No blank belongs to a word. -/
theorem isWord_of_isBlank {c : Char} (h : isBlank c) : isWord c = false := by
  have hall : ∀ n ∈ blankNumbers, isWord (Char.ofNat n) = false := by decide +kernel
  have hword := hall _ (toNat_mem_blankNumbers h)
  rwa [Char.ofNat_toNat] at hword

private theorem after?_eq_some_iff {c : Char} (hc : isBlank c = false) {t r : Text} :
    after? c t = some r ↔ ∃ gap, (∀ d ∈ gap, isBlank d) ∧ t = gap ++ c :: r := by
  constructor
  · intro h
    unfold after? at h
    split at h
    · next d rest hd =>
      split at h
      · next heq =>
        obtain rfl := Option.some.inj h
        have hsplit := List.takeWhile_append_dropWhile (p := isBlank) (l := t)
        rw [← trimStart, hd, heq] at hsplit
        exact ⟨_, List.all_eq_true.1 List.all_takeWhile, hsplit.symm⟩
      · cases h
    · cases h
  · rintro ⟨gap, hgap, rfl⟩
    have hstart : trimStart (gap ++ c :: r) = c :: r := by
      rw [trimStart, List.dropWhile_append_of_pos hgap]
      simp [hc]
    rw [after?, hstart]
    exact if_pos rfl

/-- What is found at the front of a text is an assignment. -/
theorem word?_eq_some_iff {t word rest : Text} :
    word? t = some (word, rest) ↔ ∃ a : Plain, a.word = word ∧ t = a.text ++ rest := by
  constructor
  · intro h
    have hsplit := List.takeWhile_append_dropWhile (p := isWord) (l := t)
    have hword : ∀ c ∈ t.takeWhile isWord, isWord c := List.all_eq_true.1 List.all_takeWhile
    unfold word? at h
    split at h
    · next c cs d rest' hw ha =>
      split at h
      · cases h
      · next hd =>
        cases h
        obtain ⟨gap, hgap, ht⟩ := (after?_eq_some_iff (by decide)).1 ha
        rw [hw] at hsplit hword
        refine ⟨⟨c :: cs, gap, d, by simp, hword, hgap, hd⟩, rfl, ?_⟩
        rw [← hsplit, ht]
        simp [Plain.text]
    · cases h
  · rintro ⟨a, rfl, rfl⟩
    have hstop : ∀ c ∈ (a.gap ++ '=' :: a.next :: rest).head?, isWord c = false := by
      intro c hc
      cases hgap : a.gap with
      | nil =>
        rw [hgap] at hc
        obtain rfl := Option.some.inj hc
        decide
      | cons d ds =>
        rw [hgap] at hc
        obtain rfl := Option.some.inj hc
        exact isWord_of_isBlank (a.isBlank d (by simp [hgap]))
    have htext : a.text ++ rest = a.word ++ (a.gap ++ '=' :: a.next :: rest) := by
      simp [Plain.text]
    have hcut := span_append a.isWord hstop
    have hafter : after? '=' (a.gap ++ '=' :: a.next :: rest) = some (a.next :: rest) :=
      (after?_eq_some_iff (by decide)).2 ⟨a.gap, a.isBlank, rfl⟩
    obtain ⟨c, cs, hcs⟩ := List.exists_cons_of_ne_nil a.word_ne
    rw [word?, htext, hcut.1, hcut.2, hafter, hcs]
    exact if_neg a.single

private theorem word?_text_append (a : Plain) (rest : Text) :
    word? (a.text ++ rest) = some (a.word, rest) :=
  word?_eq_some_iff.2 ⟨a, rfl, rfl⟩

end Word

/-- An assignment in no other's reach is heard. -/
theorem AssignedAt.heard {body : Text} {start : Nat} {a : Plain} (ha : AssignedAt body start a)
    (hclear : ∀ earlier < start, ∀ b, AssignedAt body earlier b →
      earlier + b.text.length < start) : Heard body start := by
  rw [Heard]
  exact ⟨⟨a, ha⟩, fun earlier hlt _ b hb => hclear earlier hlt b hb⟩

section Search

private theorem assignedAt_length {before t : Text} {a : Plain} :
    AssignedAt (before ++ t) before.length a ↔
      (∀ c ∈ before.getLast?, isWord c = false ∧ c ≠ '.') ∧ ∃ rest, t = a.text ++ rest := by
  constructor
  · rintro ⟨before', rest, hbody, hlen, hfront⟩
    obtain ⟨rfl, rfl⟩ := List.append_inj hbody hlen.symm
    exact ⟨hfront, rest, rfl⟩
  · rintro ⟨hfront, rest, rfl⟩
    exact ⟨before, rest, rfl, rfl, hfront⟩

private theorem not_assignedAt (before : Text) {t : Text} {a : Plain} (h : word? t = none) :
    ¬ AssignedAt (before ++ t) before.length a := by
  intro ha
  obtain ⟨-, rest, rfl⟩ := assignedAt_length.1 ha
  simp [word?_text_append] at h

private theorem assignedAt_cons {before cs : Text} {c : Char} {a : Plain} :
    AssignedAt (before ++ c :: cs) (before.length + 1) a ↔
      (isWord c = false ∧ c ≠ '.') ∧ ∃ rest, cs = a.text ++ rest := by
  have hbehind : before ++ c :: cs = (before ++ [c]) ++ cs := by simp
  have hlen : before.length + 1 = (before ++ [c]).length := by simp
  rw [hbehind, hlen, assignedAt_length]
  simp

private theorem AssignedAt.lt_length {body : Text} {start : Nat} {a : Plain}
    (h : AssignedAt body start a) :
    start < body.length := by
  obtain ⟨before, rest, rfl, rfl, -⟩ := h
  have hpos := List.length_pos_iff.2 a.word_ne
  simp only [Plain.text, List.length_append]
  omega

/-- In one place one word is assigned, and with one text. -/
theorem AssignedAt.unique {body : Text} {start : Nat} {a b : Plain} (ha : AssignedAt body start a)
    (hb : AssignedAt body start b) : a.word = b.word ∧ a.text = b.text := by
  obtain ⟨before, rest, rfl, rfl, -⟩ := ha
  obtain ⟨-, rest', hrest⟩ := assignedAt_length.1 hb
  have hword := word?_text_append a rest
  rw [hrest, word?_text_append, Option.some.injEq, Prod.mk.injEq] at hword
  obtain ⟨hword, rfl⟩ := hword
  exact ⟨hword.symm, List.append_cancel_right hrest⟩

/-- What a search from the place `from_` on finds: assignments out of each other's reach, such that
every other one starts in the reach of one of them. -/
structure Found (body : Text) (from_ : Nat) (found : List (Nat × Plain)) : Prop where
  assigned : ∀ x ∈ found, from_ ≤ x.1 ∧ AssignedAt body x.1 x.2
  apart : found.Pairwise fun x y => x.1 + x.2.text.length < y.1
  complete : ∀ start a, from_ ≤ start → AssignedAt body start a →
    ∃ x ∈ found, x.1 ≤ start ∧ start ≤ x.1 + x.2.text.length

variable {body : Text} {from_ : Nat} {found : List (Nat × Plain)}

private theorem Found.nil (h : body.length ≤ from_) : Found body from_ [] where
  assigned := by simp
  apart := .nil
  complete start a hfrom ha := absurd ha.lt_length (by omega)

private theorem Found.skip (h : Found body (from_ + 1) found)
    (hno : ∀ a, ¬ AssignedAt body from_ a) :
    Found body from_ found where
  assigned x hx := ⟨by have := (h.assigned x hx).1; omega, (h.assigned x hx).2⟩
  apart := h.apart
  complete start a hfrom ha := by
    have hne : start ≠ from_ := fun heq => hno a (heq ▸ ha)
    exact h.complete start a (by omega) ha

private theorem Found.cons {a : Plain} (ha : AssignedAt body from_ a)
    (h : Found body (from_ + a.text.length + 1) found) :
    Found body from_ ((from_, a) :: found) where
  assigned := by
    refine List.forall_mem_cons.2 ⟨⟨Nat.le_refl _, ha⟩, fun x hx => ?_⟩
    exact ⟨by have := (h.assigned x hx).1; omega, (h.assigned x hx).2⟩
  apart := List.pairwise_cons.2 ⟨fun x hx => (h.assigned x hx).1, h.apart⟩
  complete start b hfrom hb := by
    by_cases hreach : start ≤ from_ + a.text.length
    · exact ⟨_, List.mem_cons_self, hfrom, hreach⟩
    · obtain ⟨x, hx, hle⟩ := h.complete start b (by omega) hb
      exact ⟨x, List.mem_cons_of_mem _ hx, hle⟩

/-- The search behind the front of a text finds what is assigned behind it. -/
theorem found_plainAfter (before t : Text) :
    ∃ found, Found (before ++ t) (before.length + 1) found ∧
      plainAfter t = found.map fun x => x.2.word := by
  fun_induction plainAfter t generalizing before with
  | case1 => exact ⟨[], .nil (by simp), rfl⟩
  | case2 c cs hc ih =>
    obtain ⟨found, hfound, hwords⟩ := ih (before ++ [c])
    simp only [List.append_assoc, List.singleton_append, List.length_append,
      List.length_singleton] at hfound
    refine ⟨found, hfound.skip fun a ha => ?_, hwords⟩
    obtain ⟨⟨hword, hdot⟩, -⟩ := assignedAt_cons.1 ha
    simp [hword, hdot] at hc
  | case3 c cs hc word rest hword ih =>
    obtain ⟨a, rfl, rfl⟩ := word?_eq_some_iff.1 hword
    have hfront : isWord c = false ∧ c ≠ '.' := by simpa using hc
    obtain ⟨found, hfound, hwords⟩ := ih (before ++ c :: a.text)
    have hlen : (before ++ c :: a.text).length + 1 = before.length + 1 + a.text.length + 1 := by
      simp only [List.length_append, List.length_cons]
      omega
    rw [hlen, List.append_assoc, List.cons_append] at hfound
    exact ⟨_, hfound.cons (assignedAt_cons.2 ⟨hfront, rest, rfl⟩), by rw [hwords, List.map_cons]⟩
  | case4 c cs hc hword ih =>
    obtain ⟨found, hfound, hwords⟩ := ih (before ++ [c])
    simp only [List.append_assoc, List.singleton_append, List.length_append,
      List.length_singleton] at hfound
    refine ⟨found, hfound.skip fun a ha => ?_, hwords⟩
    obtain ⟨-, rest, rfl⟩ := assignedAt_cons.1 ha
    simp [word?_text_append] at hword

private theorem found_plain (body : Text) :
    ∃ found, Found body 0 found ∧ plain body = found.map fun x => x.2.word := by
  rw [plain]
  split
  · next word rest hword =>
    obtain ⟨a, rfl, rfl⟩ := word?_eq_some_iff.1 hword
    obtain ⟨found, hfound, hwords⟩ := found_plainAfter a.text rest
    rw [← Nat.zero_add a.text.length] at hfound
    exact ⟨_, hfound.cons ⟨[], rest, rfl, rfl, by simp⟩, by rw [hwords, List.map_cons]⟩
  · next hword =>
    obtain ⟨found, hfound, hwords⟩ := found_plainAfter [] body
    exact ⟨found, hfound.skip fun a => not_assignedAt [] hword, hwords⟩

/-- What is found is what is heard. -/
theorem Found.heard_iff (h : Found body 0 found) (start : Nat) :
    Heard body start ↔ ∃ x ∈ found, x.1 = start := by
  induction start using Nat.strong_induction_on with
  | _ start ih =>
  rw [Heard]
  constructor
  · rintro ⟨⟨a, ha⟩, hreach⟩
    obtain ⟨x, hx, hle, hin⟩ := h.complete start a (Nat.zero_le _) ha
    rcases Nat.lt_or_eq_of_le hle with hlt | heq
    · have hbefore := hreach x.1 hlt ((ih x.1 hlt).2 ⟨x, hx, rfl⟩) x.2 (h.assigned x hx).2
      omega
    · exact ⟨x, hx, heq⟩
  · rintro ⟨x, hx, rfl⟩
    refine ⟨⟨x.2, (h.assigned x hx).2⟩, fun earlier hlt hheard a ha => ?_⟩
    obtain ⟨y, hy, rfl⟩ := (ih earlier hlt).1 hheard
    have htext : a.text = y.2.text := (ha.unique (h.assigned y hy).2).2
    have hne : y ≠ x := fun heq => absurd hlt (by simp [heq])
    have heither : found.Pairwise fun x y =>
        x.1 + x.2.text.length < y.1 ∨ y.1 + y.2.text.length < x.1 := h.apart.imp Or.inl
    have : Std.Symm fun x y : Nat × Plain =>
        x.1 + x.2.text.length < y.1 ∨ y.1 + y.2.text.length < x.1 := ⟨fun _ _ => Or.symm⟩
    have hpair := heither.forall hy hx hne
    rw [htext]
    omega

/-- Of what is found, the first assignment whose word has a value gives it. -/
theorem Found.findSome?_eq_some (h : Found body from_ found) {β : Type} {f : Text → Option β}
    {x : Nat × Plain} (hx : x ∈ found) {v : β} (hv : f x.2.word = some v)
    (hfirst : ∀ y ∈ found, y.1 < x.1 → f y.2.word = none) :
    (found.map fun x => x.2.word).findSome? f = some v := by
  have hapart := h.apart
  clear h
  induction found with
  | nil => cases hx
  | cons y found ih =>
    obtain ⟨hy, hapart⟩ := List.pairwise_cons.1 hapart
    rw [List.map_cons, List.findSome?_cons]
    rcases List.mem_cons.1 hx with rfl | hx
    · rw [hv]
    · have hbefore : y.1 < x.1 := by
        have := hy x hx
        omega
      rw [hfirst y List.mem_cons_self hbefore]
      exact ih hx (fun z hz => hfirst z (List.mem_cons_of_mem y hz)) hapart

end Search

section Target

def named? (m : Method) (container : ClassInfo) (word : Text) : Option Field :=
  if m.takes word then none else container.findField? word

private theorem findSome?_filter_takes (m : Method) (container : ClassInfo) (words : List Text) :
    (words.filter fun word => !m.takes word).findSome? container.findField? =
      words.findSome? (named? m container) := by
  induction words with
  | nil => rfl
  | cons word words ih =>
    rw [List.filter_cons, List.findSome?_cons, named?]
    cases hm : m.takes word
    · simp only [Bool.not_false, if_true, List.findSome?_cons, ih, Bool.false_eq_true, if_false]
    · simpa [hm] using ih

/-- Whether a text assigns a word through `this`. -/
def AssignsThis (body : Text) : Prop :=
  ∃ before gap inner rest, ∃ a : Plain,
    body = before ++ ("this".toList ++ (gap ++ '.' :: (inner ++ (a.text ++ rest)))) ∧
      isBlankText gap ∧ isBlankText inner ∧ ∀ c ∈ before.getLast?, isWord c = false

/-- An assignment starts behind the blanks at the front of a text if it starts behind some. -/
theorem word?_trimStart_eq_some_iff {t word rest : Text} :
    word? (trimStart t) = some (word, rest) ↔
      ∃ inner, ∃ a : Plain, a.word = word ∧ t = inner ++ (a.text ++ rest) ∧ isBlankText inner := by
  rw [word?_eq_some_iff]
  constructor
  · rintro ⟨a, ha, ht⟩
    have hsplit := List.takeWhile_append_dropWhile (p := Text.isBlank) (l := t)
    rw [← trimStart, ht] at hsplit
    exact ⟨_, a, ha, hsplit.symm, List.all_takeWhile⟩
  · rintro ⟨inner, a, ha, rfl, hblank⟩
    refine ⟨a, ha, (span_append (isBlankText_iff.1 hblank) fun c hc => ?_).2⟩
    obtain ⟨d, ds, hword⟩ := List.exists_cons_of_ne_nil a.word_ne
    rw [Plain.text, hword] at hc
    obtain rfl := Option.some.inj hc
    have hd := a.isWord d (by simp [hword])
    exact Bool.eq_false_iff.2 fun hb => by simp [isWord_of_isBlank hb] at hd

private theorem thisWord?_eq_some_iff {t word : Text} : thisWord? t = some word ↔
    ∃ gap inner rest, ∃ a : Plain, a.word = word ∧
      t = "this".toList ++ (gap ++ '.' :: (inner ++ (a.text ++ rest))) ∧
        isBlankText gap ∧ isBlankText inner := by
  have hdot : Text.isBlank '.' = false := by decide
  simp only [thisWord?, Option.bind_eq_bind, Option.bind_eq_some_iff, stripPrefix?_eq_some_iff,
    after?_eq_some_iff hdot, Option.some.injEq, Prod.exists, word?_trimStart_eq_some_iff]
  constructor
  · rintro ⟨_, rfl, _, ⟨gap, hgap, rfl⟩, _, rest, ⟨inner, a, rfl, rfl, hinner⟩, rfl⟩
    exact ⟨gap, inner, rest, a, rfl, rfl, isBlankText_iff.2 hgap, hinner⟩
  · rintro ⟨gap, inner, rest, a, rfl, rfl, hgap, hinner⟩
    exact ⟨_, rfl, _, ⟨gap, isBlankText_iff.1 hgap, rfl⟩, _, rest,
      ⟨inner, a, rfl, rfl, hinner⟩, rfl⟩

/-- The search behind the front of a text finds an assignment through `this` if there is one whose
keyword starts a word. -/
theorem firstThis?_isSome_iff (before t : Text) :
    (firstThis? (before.getLast?.any isWord) t).isSome ↔
      ∃ mid rest, t = mid ++ rest ∧ (before ++ mid).getLast?.any isWord = false ∧
        (thisWord? rest).isSome := by
  induction t generalizing before with
  | nil =>
    refine iff_of_false (by simp [firstThis?]) ?_
    rintro ⟨mid, rest, hsplit, -, hthis⟩
    obtain ⟨-, rfl⟩ := List.append_eq_nil_iff.1 hsplit.symm
    exact absurd hthis (by decide)
  | cons c cs ih =>
    have hlast : isWord c = (before ++ [c]).getLast?.any isWord := by simp
    rw [firstThis?]
    split
    · next word hhere =>
      refine iff_of_true rfl ⟨[], c :: cs, rfl, ?_⟩
      rw [List.append_nil]
      split at hhere
      · cases hhere
      · next hfront => exact ⟨by simpa using hfront, by simp [hhere]⟩
    · next hhere =>
      rw [hlast, ih]
      constructor
      · rintro ⟨mid, rest, rfl, hfront, hthis⟩
        exact ⟨c :: mid, rest, rfl, by simpa using hfront, hthis⟩
      · rintro ⟨mid, rest, hsplit, hfront, hthis⟩
        rcases List.cons_eq_append_iff.1 hsplit with ⟨rfl, rfl⟩ | ⟨mid, rfl, rfl⟩
        · rw [List.append_nil] at hfront
          rw [hfront] at hhere
          simp [show thisWord? (c :: cs) = none from hhere] at hthis
        · exact ⟨mid, rest, rfl, by simpa using hfront, hthis⟩

private theorem any_isWord_eq_false_iff (c? : Option Char) :
    c?.any isWord = false ↔ ∀ c ∈ c?, isWord c = false := by
  cases c? <;> simp

private theorem firstThis?_eq_none_iff (body : Text) :
    firstThis? false body = none ↔ ¬ AssignsThis body := by
  have hsome := firstThis?_isSome_iff [] body
  rw [show ([] : Text).getLast?.any isWord = false from rfl] at hsome
  rw [← Option.not_isSome_iff_eq_none, hsome, not_iff_not]
  simp only [List.nil_append, Option.isSome_iff_exists, thisWord?_eq_some_iff,
    any_isWord_eq_false_iff]
  constructor
  · rintro ⟨before, _, rfl, hfront, _, gap, inner, rest, a, -, rfl, hgap, hinner⟩
    exact ⟨before, gap, inner, rest, a, rfl, hgap, hinner, hfront⟩
  · rintro ⟨before, gap, inner, rest, a, rfl, hgap, hinner, hfront⟩
    exact ⟨before, _, rfl, hfront, _, gap, inner, rest, a, rfl, rfl, hgap, hinner⟩

/-- Whether an assignment that is heard starts in a place of a setter's body and names a field. -/
def Hears (m : Method) (container : ClassInfo) (start : Nat) (field : Field) : Prop :=
  Heard (m.body?.getD []) start ∧
    ∃ a, AssignedAt (m.body?.getD []) start a ∧ named? m container a.word = some field

/-- What is found to be assigned names a field if and only if an assignment that is heard does. -/
theorem Found.hears_iff {m : Method} {container : ClassInfo} {found : List (Nat × Plain)}
    (h : Found (m.body?.getD []) 0 found) {start : Nat} {field : Field} :
    Hears m container start field ↔
      ∃ x ∈ found, x.1 = start ∧ named? m container x.2.word = some field := by
  constructor
  · rintro ⟨hheard, a, ha, hfield⟩
    obtain ⟨x, hx, rfl⟩ := (h.heard_iff start).1 hheard
    have hword : a.word = x.2.word := (ha.unique (h.assigned x hx).2).1
    exact ⟨x, hx, rfl, hword ▸ hfield⟩
  · rintro ⟨x, hx, rfl, hfield⟩
    exact ⟨(h.heard_iff x.1).2 ⟨x, hx, rfl⟩, x.2, (h.assigned x hx).2, hfield⟩

/-- A setter that assigns nothing through `this` has for its target the field named by the first
assignment that is heard and names one, and the field it is named after only if there is none. -/
theorem target?_hears (m : Method) (container : ClassInfo)
    (hthis : ¬ AssignsThis (m.body?.getD [])) :
    (∀ start field, Hears m container start field →
      (∀ earlier < start, ∀ other, ¬ Hears m container earlier other) →
      target? m (some container) = some field.name) ∧
    ((∀ start field, ¬ Hears m container start field) → target? m (some container) =
      (stem? m.name).bind fun stem => (container.findField? stem).map Field.name) := by
  obtain ⟨found, hfound, hwords⟩ := found_plain (m.body?.getD [])
  have htarget := (firstThis?_eq_none_iff _).2 hthis
  simp only [target?, htarget, Option.bind_eq_bind, Option.bind_some, findSome?_filter_takes,
    hwords]
  constructor
  · intro start field hhears hfirst
    obtain ⟨x, hx, rfl, hfield⟩ := hfound.hears_iff.1 hhears
    have hnone : ∀ y ∈ found, y.1 < x.1 → named? m container y.2.word = none := by
      intro y hy hlt
      refine Option.eq_none_iff_forall_ne_some.2 fun other hother => ?_
      exact hfirst y.1 hlt other (hfound.hears_iff.2 ⟨y, hy, rfl, hother⟩)
    rw [hfound.findSome?_eq_some hx hfield hnone]
  · intro hno
    have hnone : ((found.map fun x => x.2.word).findSome? (named? m container)) = none := by
      simp only [List.findSome?_eq_none_iff, List.forall_mem_map]
      intro x hx
      refine Option.eq_none_iff_forall_ne_some.2 fun field hfield => ?_
      exact hno x.1 field (hfound.hears_iff.2 ⟨x, hx, rfl, hfield⟩)
    simp only [hnone, Option.map_eq_bind, Function.comp_def]

def counter (count : Field) : ClassInfo :=
  { name := "A".toList, kind := .class, comment := .nothing, start := 0, stop := 0,
    fields := [count], constructors := [], methods := [] }

def count : Field :=
  { name := "count".toList, type := "int".toList, comment := .nothing, start := 0 }

def resize (body : String) : Method :=
  { name := "setSize".toList, isConstructor := false, returnType? := some "void".toList,
    parameters := [{ name := "n".toList, type := "int".toList }], body? := some body.toList,
    returned? := none, comment := .nothing, start := 0 }

theorem target?_hears_count :
    ¬ AssignsThis ((resize "\x7b COUNT = n; \x7d").body?.getD []) ∧
      Hears (resize "\x7b COUNT = n; \x7d") (counter count) 2 count ∧
      target? (resize "\x7b COUNT = n; \x7d") (some (counter count)) = some "count".toList := by
  have hthis : ¬ AssignsThis "\x7b COUNT = n; \x7d".toList :=
    (firstThis?_eq_none_iff _).1 (by decide)
  have hnone : ∀ earlier < 2, ∀ a, ¬ AssignedAt "\x7b COUNT = n; \x7d".toList earlier a := by
    intro earlier hlt a ha
    interval_cases earlier
    · exact not_assignedAt [] (by decide) ha
    · exact not_assignedAt ['\x7b'] (by decide) ha
  have hassigned : AssignedAt "\x7b COUNT = n; \x7d".toList 2
      ⟨"COUNT".toList, " ".toList, ' ', by decide, List.all_eq_true.1 (by decide),
        List.all_eq_true.1 (by decide), by decide⟩ :=
    ⟨"\x7b ".toList, "n; \x7d".toList, by decide, by decide, by rintro c ⟨⟩; decide⟩
  have hhears : Hears (resize "\x7b COUNT = n; \x7d") (counter count) 2 count :=
    ⟨hassigned.heard fun earlier hlt b hb => absurd hb (hnone earlier hlt b),
      _, hassigned, by decide⟩
  refine ⟨hthis, hhears,
    (target?_hears (resize "\x7b COUNT = n; \x7d") (counter count) hthis).1 2 count hhears ?_⟩
  rintro earlier hlt other ⟨-, a, ha, -⟩
  exact hnone earlier hlt a ha

/-- An assignment in the reach of one that names no field is not heard. -/
example : target? (resize "\x7b old = count = n; \x7d") (some (counter count)) = none := by
  decide +kernel

end Target

end Javadoc.Assignment
