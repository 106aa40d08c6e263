import Javadoc.Proofs.Java.Marks

/-! Putting comments before tokens that have none: the tokens are read as before, and those that
got a comment have one. -/
namespace Javadoc.Java

def Standalone (x : Text) : Prop :=
  ∃ pre k post, x = pre ++ (k.text ++ post) ∧ (∀ c ∈ pre, Lexeme.isSpace c) ∧ Lexeme.Closed k ∧
    post ≠ [] ∧ ∀ c ∈ post, Lexeme.isSpace c

namespace Token

def document (comment? : Option Text) (t : Token) : Token :=
  match comment? with
  | none => t
  | some x => { t with lead := Lexeme.scan (t.lead.flatMap (·.text) ++ x) }

@[simp] theorem lexeme_document (comment? : Option Text) (t : Token) :
    (t.document comment?).lexeme = t.lexeme := by
  cases comment? <;> rfl

theorem source_document (comment? : Option Text) (t : Token) :
    (t.document comment?).source = t.lead.flatMap (·.text) ++ (comment?.getD [] ++ t.text) := by
  cases comment? with
  | none => rfl
  | some x => simp [document, source, text, Lexeme.flatMap_text_scan]

private theorem exists_reads_spaced {ls : List Lexeme} (hl : ∀ l ∈ ls, l.isTrivia) {at_ : Nat}
    (hc : (lastComment .nothing at_ ls).isComment = false) {r : Text} (hr : Lexeme.Reads ls r)
    {w : Text} (hw : ∀ c ∈ w, Lexeme.isSpace c) :
    ∃ ms, (∀ l ∈ ms, l.isTrivia) ∧ ms.flatMap (·.text) = ls.flatMap (·.text) ++ w ∧
      ∀ u, u ≠ [] → (∀ c ∈ u.head?, Lexeme.isSpace c = false) → Lexeme.Reads ms u := by
  -- what ends with no blank goes on being read when the spaces become a blank of their own
  have hbehind {ls : List Lexeme} (hl : ∀ l ∈ ls, l.isTrivia) (hr : ∀ u, Lexeme.Reads ls u) :
      ∃ ms, (∀ l ∈ ms, l.isTrivia) ∧ ms.flatMap (·.text) = ls.flatMap (·.text) ++ w ∧
        ∀ u, u ≠ [] → (∀ c ∈ u.head?, Lexeme.isSpace c = false) → Lexeme.Reads ms u := by
    by_cases he : w = []
    · exact ⟨ls, hl, by simp [he], fun u _ _ => hr u⟩
    · refine ⟨ls ++ [⟨.blank, w⟩], ?_, by simp, fun u _ hu => ?_⟩
      · simpa [or_imp, forall_and, Lexeme.isTrivia] using hl
      · exact Lexeme.reads_append.2 ⟨hr _, Lexeme.before_blank he hw hu, trivial⟩
  rcases List.eq_nil_or_concat ls with rfl | ⟨ls, l, rfl⟩
  · exact hbehind hl fun _ => trivial
  rw [List.concat_eq_append] at hl hc hr ⊢
  have hlast : l.Before r := by simpa [Lexeme.Reads] using (Lexeme.reads_append.1 hr).2
  have hs := hlast.spelled
  rw [lastComment_append, lastComment] at hc
  cases hk : l.kind <;> rw [hk] at hs hc
  case blank =>
    obtain ⟨c, b, hb⟩ := List.exists_cons_of_ne_nil hlast.text_ne_nil
    have hdot : c ≠ '.' := by
      rintro rfl
      exact absurd (hs.1 '.' (by simp [hb])) (by decide)
    have hspace : ∀ c ∈ l.text ++ w, Lexeme.isSpace c := fun c hc =>
      (List.mem_append.1 hc).elim (hs.1 c) (hw c)
    refine ⟨ls ++ [⟨.blank, l.text ++ w⟩], fun m hm => ?_, by simp, fun u _ hu => ?_⟩
    · rcases List.mem_append.1 hm with hm | hm
      · exact hl m (List.mem_append_left _ hm)
      · rw [List.mem_singleton.1 hm]
        rfl
    · rw [Lexeme.reads_append] at hr ⊢
      refine ⟨hr.1.congr ?_, Lexeme.before_blank (by simp [hb]) hspace hu, trivial⟩
      simpa [hb] using Lexeme.SameStart.of_cons hdot _ _
  case stray =>
    refine hbehind hl fun u => hr.concat (Lexeme.before_stray hlast hk u) fun hd => ?_
    obtain ⟨c, hc, hstray⟩ := hs
    rw [hc] at hd
    obtain rfl : c = '.' := by simpa using hd
    exact absurd hstray (by decide)
  case lineComment => simp [lastComment, Preceding.isComment] at hc
  case blockComment =>
    simp only [lastComment] at hc
    split at hc <;> simp [Preceding.isComment] at hc
  all_goals
    have := hl l (by simp)
    simp [Lexeme.isTrivia, hk] at this

/-- What stands before an uncommented token and a standalone comment behind it are read as the one and
the other: the comment is directly before what follows. -/
theorem scan_standalone {ls : List Lexeme} (hl : ∀ l ∈ ls, l.isTrivia) {at_ : Nat}
    (hc : (lastComment .nothing at_ ls).isComment = false) {r : Text} (hr : Lexeme.Reads ls r)
    {x : Text} (hx : Standalone x) :
    ∃ ms, Lexeme.scan (ls.flatMap (·.text) ++ x) = ms ∧ (∀ l ∈ ms, l.isTrivia) ∧
      (∀ origin, (lastComment .nothing origin ms).isComment) ∧
      ∀ r, (∀ c ∈ r.head?, Lexeme.isSpace c = false) → Lexeme.Reads ms r := by
  obtain ⟨pre, k, post, rfl, hpre, hk, hpost, hspace⟩ := hx
  obtain ⟨front, hfront, htext, hreads⟩ := exists_reads_spaced hl hc hr hpre
  obtain ⟨-, inside, ht, -⟩ := id hk
  have hall (r : Text) (hr : ∀ c ∈ r.head?, Lexeme.isSpace c = false) :
      Lexeme.Reads (front ++ [k, ⟨.blank, post⟩]) r := by
    refine Lexeme.reads_append.2 ⟨hreads _ (by simp [ht]) ?_, hk.before _,
      Lexeme.before_blank hpost hspace hr, trivial⟩
    rw [List.flatMap_cons, ht]
    rintro c hc
    obtain rfl : '/' = c := by simpa using hc
    decide
  refine ⟨_, ?_, ?_, fun origin => ?_, hall⟩
  · have hscan := Lexeme.scan_of_reads (hall [] (by simp))
    rw [List.flatMap_append, htext] at hscan
    simpa [Lexeme.scan, Lexeme.scanFrom] using hscan
  · simpa [or_imp, forall_and, Lexeme.isTrivia, hk.1] using hfront
  · rw [lastComment_append, lastComment, lastComment_of_blank (by simp)]
    simp only [hk.1]
    split <;> rfl

theorem document_spec {comment? : Option Text} {t : Token} (h : t.IsProper)
    (hx : ∀ x ∈ comment?, Standalone x ∧ ¬ t.preceding.isComment) {r : Text}
    (hr : Lexeme.Reads t.lead r) :
    (t.document comment?).IsProper ∧ (comment?.isSome →
      ∀ origin, (lastComment .nothing origin (t.document comment?).lead).isComment) := by
  cases comment? with
  | none => exact ⟨h, by simp⟩
  | some x =>
    obtain ⟨hs, hc⟩ := hx x rfl
    obtain ⟨ms, hms, htrivia, hcomment, -⟩ := scan_standalone h.1 (Bool.eq_false_iff.2 hc) hr hs
    rw [document, hms]
    exact ⟨⟨htrivia, h.2⟩, fun _ => hcomment⟩

structure Insertable (comments : Token → Option Text) (ts : List Token) : Prop where
  standalone : ∀ t ∈ ts, ∀ x ∈ comments t, Standalone x
  uncommented : ∀ t ∈ ts, ∀ x ∈ comments t, ¬ t.preceding.isComment
  fence : ts.IsChain fun s t => ∀ x ∈ comments t, Tree.IsFence s

variable {comments : Token → Option Text}

private theorem Insertable.tail {t : Token} {ts : List Token} (h : Insertable comments (t :: ts)) :
    Insertable comments ts where
  standalone s hs := h.standalone s (List.mem_cons_of_mem _ hs)
  uncommented s hs := h.uncommented s (List.mem_cons_of_mem _ hs)
  fence := h.fence.tail

private theorem fence_or_sameStart {t : Token} {ts : List Token}
    (h : Insertable comments (t :: ts)) (trailing : Text) :
    Tree.IsFence t ∨ Lexeme.SameStart (ts.flatMap source ++ trailing)
      ((ts.map fun u => u.document (comments u)).flatMap source ++ trailing) := by
  induction ts generalizing t with
  | nil => exact .inr (.refl _)
  | cons u ts ih =>
    cases hu : comments u with
    | some x => exact .inl ((List.isChain_cons_cons.1 h.fence).1 x hu)
    | none =>
      refine .inr ?_
      simp only [List.map_cons, List.flatMap_cons, hu, document, source, List.append_assoc]
      refine Lexeme.SameStart.append ?_ _
      rcases ih h.tail with ⟨c, hc, hf⟩ | hs
      · rw [hc]
        refine Lexeme.SameStart.of_cons ?_ _ _
        rintro rfl
        exact absurd hf (by decide)
      · exact hs.append _

private theorem before_document {t : Token} {ts : List Token} (h : Insertable comments (t :: ts))
    {trailing : Text} (hb : t.lexeme.Before (ts.flatMap source ++ trailing)) :
    t.lexeme.Before ((ts.map fun u => u.document (comments u)).flatMap source ++ trailing) := by
  rcases fence_or_sameStart h trailing with ⟨c, hc, hf⟩ | hs
  · rw [hb.fence hc hf]
    exact Lexeme.before_fence hf _
  · exact Lexeme.before_congr hb hs

/-- The lexemes with the comments put in are read as such. -/
theorem reads_document {ts : List Token} (h : Insertable comments ts) (hp : ∀ t ∈ ts, t.IsProper)
    {trailing : List Lexeme} (hr : Lexeme.Reads (ts.flatMap lexemes ++ trailing) []) :
    Lexeme.Reads ((ts.map fun t => t.document (comments t)).flatMap lexemes ++ trailing) [] := by
  induction ts with
  | nil => exact hr
  | cons t ts ih =>
    have ht := hp t List.mem_cons_self
    simp only [List.flatMap_cons, List.map_cons, List.append_assoc] at hr ⊢
    rw [Lexeme.reads_append] at hr ⊢
    obtain ⟨hlex, hrest⟩ := hr
    refine ⟨?_, ih h.tail (fun u hu => hp u (List.mem_cons_of_mem _ hu)) hrest⟩
    rw [List.append_nil, List.flatMap_append, flatMap_flatMap_text] at hlex ⊢
    rw [lexemes, Lexeme.reads_append] at hlex ⊢
    obtain ⟨hlead, hb, -⟩ := hlex
    have hb' := before_document h hb
    rw [lexeme_document]
    refine ⟨?_, by simpa using hb', trivial⟩
    have hspace : ∀ c ∈ t.lexeme.text.head?, Lexeme.isSpace c = false := fun c hc =>
      Lexeme.isSpace_of_isBlank_eq_false (hb.isBlank_head ht.2 c hc)
    cases hc : comments t with
    | none =>
      refine hlead.congr ?_
      simp only [List.flatMap_cons, List.flatMap_nil, List.append_nil]
      rcases fence_or_sameStart h (trailing.flatMap (·.text)) with ⟨c, hc, hf⟩ | hs
      · rw [show t.lexeme.text = [c] from hc]
        refine Lexeme.SameStart.of_cons ?_ _ _
        rintro rfl
        exact absurd hf (by decide)
      · exact hs.append _
    | some x =>
      have hx := h.standalone t List.mem_cons_self x hc
      have hun := h.uncommented t List.mem_cons_self x hc
      obtain ⟨ms, hms, -, -, hreads⟩ := scan_standalone ht.1 (Bool.eq_false_iff.2 hun) hlead hx
      rw [document, hms]
      refine hreads _ ?_
      obtain ⟨c, cs, hcs⟩ := List.exists_cons_of_ne_nil hb.text_ne_nil
      simpa [hcs] using hspace

end Token
end Javadoc.Java
