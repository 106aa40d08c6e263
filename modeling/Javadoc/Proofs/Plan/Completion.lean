import Javadoc.Proofs.Plan.Idempotence

/-! What documenting a document does: the plan inserts one comment for each start of declarations
that is to get one, all of it can always be carried out, and taking the inserted texts out again
gives the old document back. -/
namespace Javadoc

namespace Edit

/-- The edits that take out what edits in the order of their places have put in; `grown` is by how
much the text before them has grown. -/
def removals (grown : Nat) : List Edit → List Edit
  | [] => []
  | e :: es =>
    .replace (e.start + grown) (e.start + grown + Text.size e.text) [] ::
      removals (grown + Text.size e.text) es

private theorem exists_of_mem_removals {grown : Nat} {es : List Edit} {f : Edit}
    (h : f ∈ removals grown es) : ∃ e ∈ es, e.start + grown ≤ f.start := by
  induction es generalizing grown with
  | nil => cases h
  | cons e es ih =>
    rcases List.mem_cons.1 h with rfl | h
    · exact ⟨e, List.mem_cons_self, Nat.le_refl _⟩
    · obtain ⟨d, hd, hle⟩ := ih h
      exact ⟨d, List.mem_cons_of_mem e hd, by omega⟩

private theorem pairwise_start_removals {es : List Edit}
    (h : es.Pairwise fun e f => e.start < f.start)
    (grown : Nat) : (removals grown es).Pairwise fun e f => e.start < f.start := by
  induction h generalizing grown with
  | nil => exact .nil
  | @cons e es he _ ih =>
    refine .cons (fun f hf => ?_) (ih _)
    obtain ⟨d, hd, hle⟩ := exists_of_mem_removals hf
    have hlt := he d hd
    simp only [start] at hlt hle ⊢
    omega

end Edit

namespace Patch

def isAdditive : Patch → Bool
  | keep _ => true
  | put _ => true
  | swap _ _ => false

def undo : Patch → Patch
  | keep text => keep text
  | put text => swap text []
  | swap old new => swap new old

private theorem old_undo (p : Patch) : p.undo.old = p.new := by
  cases p <;> rfl

private theorem new_undo (p : Patch) : p.undo.new = p.old := by
  cases p <;> rfl

private theorem edits_undo {ps : List Patch} (h : ∀ p ∈ ps, p.isAdditive) (at_ grown : Nat) :
    edits (at_ + grown) (ps.map undo) = Edit.removals grown (edits at_ ps) := by
  induction ps generalizing at_ grown with
  | nil => rfl
  | cons p ps ih =>
    have ih := ih fun q hq => h q (List.mem_cons_of_mem p hq)
    cases p with
    | keep text =>
      rw [List.map_cons, undo, edits, edits, ← ih, Nat.add_right_comm]
    | put text =>
      rw [List.map_cons, undo, edits, edits, Edit.removals, ← ih]
      simp only [Edit.start, Edit.text, Nat.add_assoc]
    | swap old new => cases h _ List.mem_cons_self

/-- What is taken out is what was put in. -/
theorem forall₂_slice?_removals {ps : List Patch} (h : ∀ p ∈ ps, p.isAdditive) {front : Text}
    {at_ grown : Nat} (hfront : Text.size front = at_ + grown) :
    List.Forall₂ (fun e f => Text.slice? f.start f.stop (front ++ ps.flatMap new) = some e.text)
      (edits at_ ps) (Edit.removals grown (edits at_ ps)) := by
  induction ps generalizing front at_ grown with
  | nil => exact .nil
  | cons p ps ih =>
    have ih := @ih fun q hq => h q (List.mem_cons_of_mem p hq)
    cases p with
    | keep text =>
      have hrest := @ih (front ++ text) (at_ + Text.size text) grown
        (by rw [Text.size_append, hfront, Nat.add_right_comm])
      rwa [List.append_assoc] at hrest
    | put text =>
      have hrest := @ih (front ++ text) at_ (grown + Text.size text)
        (by rw [Text.size_append, hfront, Nat.add_assoc])
      rw [List.append_assoc] at hrest
      refine .cons ?_ hrest
      have hslice := Text.slice?_size front text (ps.flatMap new)
      rwa [hfront] at hslice
    | swap old new => cases h _ List.mem_cons_self

section Batch

variable {ps : List Patch} {es : List Edit} (h : es.Perm (edits 0 ps))
  (hs : (edits 0 ps).Pairwise fun e f => e.start < f.start) (ha : ∀ p ∈ ps, p.isAdditive)

include h hs ha

private theorem forall₂_slice?_ordered :
    List.Forall₂ (fun e f => Text.slice? f.start f.stop (ps.flatMap new) = some e.text)
      (Edit.ordered es) (Edit.removals 0 (Edit.ordered es)) := by
  rw [ordered_eq_of_perm h hs]
  exact @forall₂_slice?_removals ps ha [] 0 0 rfl

/-- Pieces that were put in can be taken out again. -/
theorem applyAll_removals :
    Edit.applyAll (ps.flatMap new) (Edit.removals 0 (Edit.ordered es)) = .ok (ps.flatMap old) := by
  have hundo : edits 0 (ps.map undo) = Edit.removals 0 (edits 0 ps) := edits_undo ha 0 0
  have happly := @applyAll_edits (ps.map undo) _ (.refl _) ?_
  · simpa only [hundo, ordered_eq_of_perm h hs, List.flatMap_map, old_undo, new_undo] using happly
  · rw [hundo]
    exact Edit.pairwise_start_removals hs 0

end Batch

end Patch

namespace Plan

open Java

section

variable {t : Templates} {source : Text}

/-- Declarations with the same start have the same comment before them, or none. -/
theorem commented_eq_of_start_eq {r s : Site} (hr : r ∈ Site.ofSource t source)
    (hs : s ∈ Site.ofSource t source) (h : r.start = s.start) : r.commented = s.commented := by
  obtain ⟨m, hm, -, hmr, hmc⟩ := exists_mark_of_mem_ofSource hr
  obtain ⟨n, hn, -, hns, hnc⟩ := exists_mark_of_mem_ofSource hs
  have hmn : m.token = n.token :=
    Token.eq_of_start_eq (token_mem_scan hm) (token_mem_scan hn) (by rw [← hmr, h, hns])
  rw [hmc, hnc, hmn]

private theorem find?_filter_uncommented {ss : List Site}
    (h : ∀ r ∈ ss, ∀ s ∈ ss, r.start = s.start → r.commented = s.commented) {n : Nat} {s : Site} :
    (ss.filter fun site => !site.commented).find? (fun site => site.start == n) = some s ↔
      ss.find? (fun site => site.start == n) = some s ∧ s.commented = false := by
  induction ss with
  | nil => simp
  | cons r ss ih =>
    have ih := ih fun q hq s hs => h q (List.mem_cons_of_mem r hq) s (List.mem_cons_of_mem r hs)
    by_cases hn : r.start = n
    · cases hc : r.commented with
      | false =>
        simp only [List.filter_cons, hc, Bool.not_false, if_true, List.find?_cons, hn,
          beq_self_eq_true, Option.some.injEq]
        constructor
        · rintro rfl
          exact ⟨rfl, hc⟩
        · exact fun h => h.1
      | true =>
        -- what stands there later has a comment as well
        simp only [List.filter_cons, hc, Bool.not_true, Bool.false_eq_true, if_false, ih,
          List.find?_cons, hn, beq_self_eq_true, Option.some.injEq]
        constructor
        · rintro ⟨hs, hsc⟩
          have hstart := List.find?_some hs
          have := h r List.mem_cons_self s (List.mem_cons_of_mem r (List.mem_of_find?_eq_some hs))
            (hn.trans (eq_of_beq hstart).symm)
          rw [hc, hsc] at this
          cases this
        · rintro ⟨rfl, hsc⟩
          rw [hc] at hsc
          cases hsc
    · have hb : (r.start == n) = false := by simpa using hn
      rw [List.find?_cons, hb, ← ih, List.filter_cons]
      split
      · rw [List.find?_cons, hb]
      · rfl

/-- The insertions of the plan are those for the first declarations at starts without a comment. -/
theorem insert_mem_edits_iff {path : Text} {n : Nat} {text : Text} :
    Edit.insert n text ∈ edits t (SourceFile.read path source) ↔
      ∃ s comment, (Site.ofSource t source).find? (fun site => site.start == n) = some s ∧
        s.commented = false ∧ s.comment? = some comment ∧
        text = layOut (newlineOf source) (indentAt source n) comment := by
  have hopen {n : Nat} {s : Site} := find?_filter_uncommented (n := n) (s := s)
    fun _ hr _ hs => @commented_eq_of_start_eq t source _ _ hr hs
  rw [edits_read, List.mem_filterMap]
  constructor
  · rintro ⟨s, hs, he⟩
    obtain ⟨comment, hc, he⟩ := Option.map_eq_some_iff.1 he
    obtain ⟨rfl, rfl⟩ := Edit.insert.inj he
    obtain ⟨hfind, hun⟩ := hopen.1 (Site.mem_firstOfEach.1 hs)
    exact ⟨s, comment, hfind, hun, hc, rfl⟩
  · rintro ⟨s, comment, hfind, hun, hc, rfl⟩
    have hstart := List.find?_some hfind
    obtain rfl := eq_of_beq hstart
    refine ⟨s, Site.mem_firstOfEach.2 (hopen.2 ⟨hfind, hun⟩), ?_⟩
    rw [insertion?, hc, Option.map_some]

theorem exists_insert_of_mem_edits {path : Text} {e : Edit}
    (h : e ∈ edits t (SourceFile.read path source)) : ∃ n text, e = .insert n text := by
  rw [edits_read] at h
  obtain ⟨s, -, he⟩ := List.mem_filterMap.1 h
  obtain ⟨comment, -, rfl⟩ := Option.map_eq_some_iff.1 he
  exact ⟨_, _, rfl⟩

private theorem pairwise_start_edits (path : Text) :
    (edits t (SourceFile.read path source)).Pairwise fun e f => e.start ≠ f.start := by
  rw [edits_read]
  refine (Site.pairwise_firstOfEach _).filterMap _ fun r s hrs e he f hf => ?_
  obtain ⟨_, -, rfl⟩ := Option.map_eq_some_iff.1 he
  obtain ⟨_, -, rfl⟩ := Option.map_eq_some_iff.1 hf
  exact hrs

end

private theorem isAdditive_patches {comments : Token → Option Text} {ts : List Token}
    {trailing : Text} :
    ∀ p ∈ ts.flatMap (patches comments) ++ [.keep trailing], p.isAdditive := by
  intro p hp
  rcases List.mem_append.1 hp with hp | hp
  · obtain ⟨u, -, hp⟩ := List.mem_flatMap.1 hp
    cases hc : comments u <;> simp only [patches, hc, Option.map_none, Option.map_some,
      Option.toList_none, Option.toList_some, List.cons_append, List.nil_append, List.mem_cons,
      List.not_mem_nil, or_false] at hp
    · rcases hp with rfl | rfl <;> rfl
    · rcases hp with rfl | rfl | rfl <;> rfl
  · obtain rfl := List.mem_singleton.1 hp
    rfl

/-- The plan of a document can be carried out, and taken back. -/
theorem exists_applyAll_edits (t : Templates) (path source : Text) :
    let edits := edits t (SourceFile.read path source)
    let removals := Edit.removals 0 (Edit.ordered edits)
    ∃ text, Edit.applyAll source edits = .ok text ∧
      List.Forall₂ (fun e f => Text.slice? f.start f.stop text = some e.text)
        (Edit.ordered edits) removals ∧
      Edit.applyAll text removals = .ok source := by
  obtain ⟨trailing, -, hlex, -, -⟩ := Token.scan_spec source
  have hsource := Lexeme.flatMap_text_scan source
  rw [hlex, List.flatMap_append, Token.flatMap_flatMap_text] at hsource
  have hperm := perm_edits t path source (trailing.flatMap (·.text))
  have hstart := @pairwise_start_patches (inserted? t source) source
    (trailing.flatMap (·.text))
  have happly := Patch.applyAll_edits hperm hstart
  have hundo := Patch.applyAll_removals hperm hstart isAdditive_patches
  have hslices := Patch.forall₂_slice?_ordered hperm hstart isAdditive_patches
  rw [flatMap_old_patches, hsource] at happly hundo
  exact ⟨_, happly, hslices, hundo⟩

/-- Two names of one field share a comment, and a field with a remark before it gets none. -/
example : (edits .standard (SourceFile.read []
    "class A { int a, b; /* c */ int c; }".toList)).map Edit.start = [0, 10] := by
  decide +kernel

end Plan
end Javadoc
