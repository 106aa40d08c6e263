import Javadoc.Proofs.Java.Swaps

/-! Where tokens and the comments before them stand in a source. Their bytes start and end between
characters, and a documentation comment is the slice of the source that its offsets tell. -/
namespace Javadoc

structure DocComment.Fits (source : Text) (start : Nat) (d : DocComment) : Prop where
  slice : Text.slice? d.start d.stop source = some d.text
  opens : Comment.docStart <+: d.text
  closes : Comment.blockClose <:+ d.text
  gap : ∃ gap, Text.slice? d.stop start source = some gap ∧ Text.isBlankText gap
  bounds : Text.isBoundary d.start source ∧ Text.isBoundary d.stop source

private theorem DocComment.Fits.of_split {source front gap rest : Text} {start : Nat}
    {d : DocComment}
    (hsource : source = front ++ (d.text ++ (gap ++ rest))) (hdstart : d.start = Text.size front)
    (hdstop : d.stop = Text.size (front ++ d.text))
    (hstart : start = Text.size (front ++ d.text ++ gap)) (hopens : Comment.docStart <+: d.text)
    (hcloses : Comment.blockClose <:+ d.text) (hblank : Text.isBlankText gap) :
    d.Fits source start := by
  have hgap := Text.slice?_size (front ++ d.text) gap rest
  have hstop := Text.isBoundary_size (front ++ d.text) (gap ++ rest)
  rw [← Text.size_append, ← hstart, List.append_assoc, ← hsource, ← hdstop] at hgap
  rw [List.append_assoc, ← hsource, ← hdstop] at hstop
  refine ⟨?_, hopens, hcloses, ⟨gap, hgap, hblank⟩, ?_, hstop⟩
  · rw [hdstart, hdstop, Text.size_append, hsource]
    exact Text.slice?_size _ _ _
  · rw [hdstart, hsource]
    exact Text.isBoundary_size _ _

namespace Java

namespace Lexeme

private theorem isBlankText_of_reads {ls : List Lexeme} {r : Text} (h : Reads ls r)
    (hk : ∀ l ∈ ls, l.kind = .blank) : Text.isBlankText (ls.flatMap (·.text)) := by
  induction ls with
  | nil => rfl
  | cons l ls ih =>
    rw [List.forall_mem_cons] at hk
    have hs := h.1.spelled
    rw [hk.1] at hs
    rw [List.flatMap_cons, Text.isBlankText, List.all_append, Bool.and_eq_true]
    exact ⟨List.all_eq_true.2 fun c hc => isBlank_of_isSpace (hs.1 c hc), ih h.2 hk.2⟩

end Lexeme

namespace Token

private theorem origin_le_start (t : Token) : t.origin ≤ t.start := Nat.le_add_right _ _

structure Ahead (s t : Token) : Prop where
  first : s.start < s.stop
  gap : s.stop ≤ t.origin
  second : t.start < t.stop

namespace Ahead

variable {s t : Token} (h : s.Ahead t)
include h

theorem stop_le : s.stop ≤ t.start := h.gap.trans t.origin_le_start

theorem start_lt : s.start < t.start := h.first.trans_le h.stop_le

theorem stop_lt : s.stop < t.stop := h.stop_le.trans_lt h.second

theorem trans {u : Token} (h' : t.Ahead u) : s.Ahead u where
  first := h.first
  gap := h.stop_le.trans (h'.first.le.trans h'.gap)
  second := h'.second

end Ahead

variable {source : Text}

private theorem start_lt_stop {t : Token} (ht : t ∈ scan source) : t.start < t.stop := by
  obtain ⟨c, w, hc⟩ := List.exists_cons_of_ne_nil (text_ne_nil_of_mem_scan ht)
  have := Char.utf8Size_pos c
  rw [stop, hc, Text.size]
  omega

theorem pairwise_ahead (source : Text) : (scan source).Pairwise Ahead := by
  have h := pairwise_start (place_scan source) fun _ => text_ne_nil_of_mem_scan
  exact h.imp_of_mem fun hs ht h => ⟨start_lt_stop hs, h.1, start_lt_stop ht⟩

theorem isBoundary_bounds {t : Token} (ht : t ∈ scan source) :
    Text.isBoundary t.start source ∧ Text.isBoundary t.stop source := by
  obtain ⟨as, bs, hscan⟩ := List.append_of_mem ht
  obtain ⟨behind, hsource⟩ := exists_behind hscan
  constructor
  · rw [start_eq hscan, hsource]
    exact Text.isBoundary_size _ _
  · rw [stop, start_eq hscan, ← Text.size_append, hsource, ← List.append_assoc]
    exact Text.isBoundary_size _ _

/-- The documentation comment before a token is a part of the source, and ends before the token. -/
theorem fits_of_mem_scan {t : Token} (ht : t ∈ scan source) {d : DocComment}
    (hd : t.preceding.doc? = some d) : d.Fits source t.start := by
  obtain ⟨as, bs, hscan⟩ := List.append_of_mem ht
  obtain ⟨trailing, -, hlex, hproper, -⟩ := scan_spec source
  obtain ⟨r, hr⟩ := exists_reads_lead ht
  obtain ⟨behind, hsource⟩ := exists_behind hscan
  have hstart := start_eq hscan
  obtain ⟨ls, l, ms, hl, hk, hopens, rfl, hms⟩ := exists_doc hd
  obtain ⟨-, inside, hinside, -⟩ := closed_of_mem_lead ht (l := l) (by simp [hl]) hk
  have hdstart : t.origin + sizeOfLexemes ls =
      Text.size (as.flatMap Token.source ++ ls.flatMap (·.text)) := by
    rw [start, Text.size_append, size_lead] at hstart
    rw [Text.size_append, sizeOfLexemes]
    omega
  have hblank : Text.isBlankText (ms.flatMap (·.text)) := by
    rw [hl, ← List.singleton_append, ← List.append_assoc, Lexeme.reads_append] at hr
    refine Lexeme.isBlankText_of_reads hr.2 fun m hm => hms m hm ?_
    exact (hproper t ht).1 m (by simp [hl, hm])
  have hsplit : source = (as.flatMap Token.source ++ ls.flatMap (·.text)) ++
      (l.text ++ (ms.flatMap (·.text) ++ (t.text ++ behind))) := by
    simpa [hl] using hsource
  refine .of_split hsplit hdstart ?_ ?_ hopens ⟨'/' :: '*' :: inside, hinside.symm⟩ hblank
  · rw [Text.size_append, ← hdstart]
  · simpa [hl] using hstart

end Token
end Java
end Javadoc
