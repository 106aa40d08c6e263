import Javadoc.Edit
import Mathlib.Algebra.GroupWithZero.Nat
import Mathlib.Data.List.Chain

/-! What a batch of edits does. The edits are put in the order of their ranges, those with one range
as they were given. If they are in the text and apart, their texts stand between what is left of it. -/
namespace Javadoc

namespace Edit

def range (e : Edit) : Nat × Nat := (e.start, e.stop)

/-- The edit replaces whole characters of the text. -/
structure Fits (source : Text) (e : Edit) : Prop where
  le : e.start ≤ e.stop
  le_size : e.stop ≤ Text.size source
  start : Text.isBoundary e.start source
  stop : Text.isBoundary e.stop source

/-- The first edit ends where the second one starts, or before. -/
def Apart (e f : Edit) : Prop := e.stop ≤ f.start

/-- Both lists have the same edits, those with one range in the same order. -/
def SameOrder (es fs : List Edit) : Prop :=
  ∀ r, es.filter (·.range = r) = fs.filter (·.range = r)

/-- The edits in the order of their ranges, those with one range as they were given. -/
structure StablySorted (edits es : List Edit) : Prop where
  sorted : es.Pairwise fun e f => e.start < f.start ∨ e.start = f.start ∧ e.stop ≤ f.stop
  stable : SameOrder es edits

/-- The text from byte `done` on: what the source has between two edits stays, and in the place of
what they replace stands their text. -/
inductive Spliced (source : Text) : Nat → List Edit → Text → Prop where
  | rest {done : Nat} {rest : Text} :
    Text.slice? done (Text.size source) source = some rest → Spliced source done [] rest
  | edit {done : Nat} {e : Edit} {es : List Edit} {gap text : Text} :
    Text.slice? done e.start source = some gap → Spliced source e.stop es text →
      Spliced source done (e :: es) (gap ++ (e.text ++ text))

def replace? (e : Edit) (t : Text) : Option Text := do
  let (before, _) ← Text.splitAtByte? e.start t
  let (_, after) ← Text.splitAtByte? e.stop t
  some (before ++ (e.text ++ after))

theorem before_iff {e f : Edit} :
    e.before f ↔ e.start < f.start ∨ e.start = f.start ∧ e.stop ≤ f.stop := by
  simp [before]

theorem before_trans (e f g : Edit) (hef : e.before f) (hfg : f.before g) : e.before g := by
  rw [before_iff] at hef hfg ⊢
  omega

theorem before_total (e f : Edit) : (e.before f || f.before e) = true := by
  rw [Bool.or_eq_true, before_iff, before_iff]
  omega

theorem SameOrder.mem_iff {es fs : List Edit} (h : SameOrder es fs) {e : Edit} :
    e ∈ es ↔ e ∈ fs := by
  have hfilter := congrArg (e ∈ ·) (h e.range)
  simpa using hfilter

theorem stablySorted_ordered (edits : List Edit) : StablySorted edits (ordered edits) := by
  refine ⟨(List.pairwise_mergeSort before_trans before_total edits).imp before_iff.1, fun r => ?_⟩
  have hequal : (edits.filter (·.range = r)).Pairwise fun e f => e.before f := by
    refine List.pairwise_of_forall_mem_list fun e he f hf => before_iff.2 ?_
    obtain ⟨-, he⟩ := List.mem_filter.1 he
    obtain ⟨-, hf⟩ := List.mem_filter.1 hf
    simp only [range, decide_eq_true_eq, Prod.ext_iff] at he hf
    omega
  have hsub : (edits.filter (·.range = r)).Sublist (ordered edits) :=
    List.sublist_mergeSort before_trans before_total hequal List.filter_sublist
  have hfilter := hsub.filter (·.range = r)
  simp only [List.filter_filter, Bool.and_self] at hfilter
  exact (hfilter.eq_of_length ((List.mergeSort_perm edits before).filter _).length_eq.symm).symm

/-- There is one such order. -/
theorem StablySorted.unique {edits es fs : List Edit} (he : StablySorted edits es)
    (hf : StablySorted edits fs) : es = fs := by
  obtain ⟨hes, hsame⟩ := he
  obtain ⟨hfs, hstable⟩ := hf
  replace hsame : SameOrder es fs := fun r => (hsame r).trans (hstable r).symm
  clear hstable
  induction es generalizing fs with
  | nil =>
    cases fs with
    | nil => rfl
    | cons f fs => exact absurd (hsame.mem_iff.2 List.mem_cons_self) List.not_mem_nil
  | cons e es ih =>
    cases fs with
    | nil => exact absurd (hsame.mem_iff.1 List.mem_cons_self) List.not_mem_nil
    | cons f fs =>
      obtain ⟨he, hes'⟩ := List.pairwise_cons.1 hes
      obtain ⟨hf, hfs'⟩ := List.pairwise_cons.1 hfs
      -- each of the two stands in the other list as well, where nothing comes before its first
      have hrange : f.range = e.range := by
        have hef := List.mem_cons.1 (hsame.mem_iff.2 (List.mem_cons_self (a := f) (l := fs)))
        have hfe := List.mem_cons.1 (hsame.mem_iff.1 (List.mem_cons_self (a := e) (l := es)))
        rcases hef with rfl | hef
        · rfl
        rcases hfe with rfl | hfe
        · rfl
        have h₁ := he f hef
        have h₂ := hf e hfe
        simp only [range, Prod.ext_iff]
        omega
      obtain rfl : e = f := by
        have hhead := congrArg List.head? (hsame e.range)
        simpa [hrange] using hhead
      congr 1
      refine ih hes' hfs' fun r => ?_
      have htail := hsame r
      simp only [List.filter_cons] at htail
      split at htail
      · exact (List.cons.inj htail).2
      · exact htail

private theorem filter_append_filter_not {R : Edit → Edit → Prop} {p : Edit → Bool}
    (hp : ∀ e f, R e f → p f → p e) {es : List Edit} (h : es.Pairwise R) :
    es.filter p ++ es.filter (!p ·) = es := by
  induction es with
  | nil => rfl
  | cons e es ih =>
    obtain ⟨he, hes⟩ := List.pairwise_cons.1 h
    by_cases hpe : p e
    · simp [hpe, ih hes]
    · have hall : ∀ f ∈ es, ¬ p f := fun f hf hpf => hpe (hp e f (he f hf) hpf)
      have hnil : es.filter p = [] := List.filter_eq_nil_iff.2 hall
      have hself : es.filter (!p ·) = es := List.filter_eq_self.2 fun f hf => by simp [hall f hf]
      simp [hpe, hnil, hself]

private def isBelow (r : Nat × Nat) (e : Edit) : Bool :=
  e.start < r.1 ∨ e.start = r.1 ∧ e.stop < r.2

private def isWithin (r : Nat × Nat) (e : Edit) : Bool :=
  e.start < r.1 ∨ e.start = r.1 ∧ e.stop ≤ r.2

/-- The edits with one range stand side by side, between those with smaller and greater ranges. -/
theorem StablySorted.exists_append {edits es : List Edit} (h : StablySorted edits es)
    (r : Nat × Nat) :
    ∃ before after, es = before ++ (edits.filter (·.range = r) ++ after) ∧
      (∀ e ∈ before, e.start < r.1 ∨ e.start = r.1 ∧ e.stop < r.2) ∧
      ∀ e ∈ after, r.1 < e.start ∨ r.1 = e.start ∧ r.2 < e.stop := by
  have hbelow : es.filter (isBelow r) ++ es.filter (!isBelow r ·) = es :=
    filter_append_filter_not (fun e f hef hf => by
      simp only [isBelow, decide_eq_true_eq] at hf ⊢
      omega) h.sorted
  have hwithin : (es.filter (!isBelow r ·)).filter (isWithin r) ++
      (es.filter (!isBelow r ·)).filter (!isWithin r ·) = es.filter (!isBelow r ·) :=
    filter_append_filter_not (fun e f hef hf => by
      simp only [isWithin, decide_eq_true_eq] at hf ⊢
      omega) (h.sorted.filter _)
  have hrange : (es.filter (!isBelow r ·)).filter (isWithin r) =
      edits.filter (·.range = r) := by
    rw [List.filter_filter, ← h.stable r]
    refine List.filter_congr fun e _ => ?_
    rw [Bool.eq_iff_iff]
    simp only [isWithin, isBelow, range, Bool.and_eq_true, Bool.not_eq_true',
      decide_eq_true_eq, decide_eq_false_iff_not, Prod.ext_iff]
    omega
  refine ⟨es.filter (isBelow r),
    (es.filter (!isBelow r ·)).filter (!isWithin r ·), ?_, fun e he => ?_, fun e he => ?_⟩
  · rw [← hrange, hwithin, hbelow]
  · simpa [isBelow] using (List.mem_filter.1 he).2
  · have hnot := (List.mem_filter.1 he).2
    simp only [isWithin, Bool.not_eq_true', decide_eq_false_iff_not] at hnot
    omega

theorem fault?_eq_none_iff {source : Text} {done : Nat} {e : Edit} :
    fault? source done e = none ↔ e.Fits source ∧ done ≤ e.start := by
  rw [fault?]
  split
  · next h =>
    simp only [reduceCtorEq, false_iff]
    rintro ⟨hfits, -⟩
    have hle := hfits.le
    have hle_size := hfits.le_size
    simp only [Bool.or_eq_true, decide_eq_true_eq] at h
    omega
  · next hrange =>
    split
    · next h =>
      simp only [reduceCtorEq, false_iff]
      rintro ⟨hfits, -⟩
      simp [hfits.start, hfits.stop] at h
    · next hbound =>
      simp only [Bool.or_eq_true, decide_eq_true_eq, not_or, Nat.not_lt] at hrange
      simp only [Bool.not_eq_false, Bool.and_eq_true, Bool.not_eq_eq_eq_not,
        Bool.not_true] at hbound
      split
      · next h => simp [h]
      · next h =>
        exact iff_of_true rfl
          ⟨⟨hrange.1, hrange.2, hbound.1, hbound.2⟩, Nat.not_lt.1 h⟩

private theorem firstFault?_cons_eq_none_iff {source : Text} {done : Nat} {e : Edit}
    {es : List Edit} :
    firstFault? source done (e :: es) = none ↔
      fault? source done e = none ∧ firstFault? source e.stop es = none := by
  rw [firstFault?]
  split
  · next h => simp [h]
  · next h => simp [h]

private theorem firstFault?_eq_none_iff {source : Text} {done : Nat} {es : List Edit} :
    firstFault? source done es = none ↔
      (∀ e ∈ es, e.Fits source) ∧ (∀ e ∈ es.head?, done ≤ e.start) ∧ es.IsChain Apart := by
  induction es generalizing done with
  | nil => simp [firstFault?]
  | cons e es ih =>
    rw [firstFault?_cons_eq_none_iff, fault?_eq_none_iff, ih, List.isChain_cons,
      List.forall_mem_cons]
    constructor
    · rintro ⟨⟨hfits, hdone⟩, hall, hhead, hchain⟩
      exact ⟨⟨hfits, hall⟩, by simpa using hdone, hhead, hchain⟩
    · rintro ⟨⟨hfits, hall⟩, hdone, hhead, hchain⟩
      exact ⟨⟨hfits, hdone e rfl⟩, hall, hhead, hchain⟩

/-- The pieces of the source that an edit and what stands before it are about. -/
theorem Fits.exists_pieces {source front rest : Text} {e : Edit} (h : e.Fits source)
    (hs : source = front ++ rest) (hle : Text.size front ≤ e.start) :
    ∃ gap old after, rest = gap ++ (old ++ after) ∧ e.start = Text.size (front ++ gap) ∧
      e.stop = Text.size (front ++ gap) + Text.size old := by
  have hstart := h.start
  have hstop := h.stop
  rw [Text.isBoundary_eq_isSome] at hstart hstop
  obtain ⟨⟨a, b⟩, ha⟩ := Option.isSome_iff_exists.1 hstart
  obtain ⟨⟨c, d⟩, hc⟩ := Option.isSome_iff_exists.1 hstop
  obtain ⟨hab, hsize⟩ := Text.splitAtByte?_eq_some ha
  obtain ⟨hcd, hsize'⟩ := Text.splitAtByte?_eq_some hc
  obtain ⟨gap, rfl, rfl⟩ := Text.exists_append_of_size_le (hs.symm.trans hab) (by omega)
  obtain ⟨old, rfl, rfl⟩ := Text.exists_append_of_size_le (hab.symm.trans hcd)
    (by rw [hsize, hsize']; exact h.le)
  exact ⟨gap, old, d, rfl, hsize.symm, by rw [← hsize', Text.size_append]⟩

private theorem replace?_eq {e : Edit} {before old after : Text}
    (hstart : e.start = Text.size before)
    (hstop : e.stop = Text.size before + Text.size old) :
    replace? e (before ++ (old ++ after)) = some (before ++ (e.text ++ after)) := by
  rw [replace?, hstart, Text.splitAtByte?_size, hstop, ← Text.size_append, ← List.append_assoc,
    Text.splitAtByte?_size]
  rfl

/-- A batch without faults is spliced in, and exchanging the bytes of the last edit first and of the
first edit last comes to the same text. -/
theorem splice_spliced {source front rest : Text} {es : List Edit} (hs : source = front ++ rest)
    (h : firstFault? source (Text.size front) es = none) :
    Spliced source (Text.size front) es (splice (Text.size front) rest es) ∧
      es.foldrM replace? source = some (front ++ splice (Text.size front) rest es) := by
  induction es generalizing front rest with
  | nil =>
    refine ⟨.rest ?_, by simp [splice, hs]⟩
    have hslice := Text.slice?_size front rest []
    rwa [List.append_nil, ← Text.size_append, ← hs] at hslice
  | cons e es ih =>
    obtain ⟨hfault, hrest⟩ := firstFault?_cons_eq_none_iff.1 h
    obtain ⟨hfits, hle⟩ := fault?_eq_none_iff.1 hfault
    obtain ⟨gap, old, after, rfl, hstart, hstop⟩ := hfits.exists_pieces hs hle
    have hfront : e.stop = Text.size (front ++ (gap ++ old)) := by
      rw [hstop, ← Text.size_append, List.append_assoc]
    rw [hfront] at hrest
    have hsource : source = front ++ (gap ++ old) ++ after := by simp [hs]
    -- the edits behind this one leave the text up to its end as it was
    obtain ⟨hspliced, hfold⟩ := ih hsource hrest
    rw [← hfront] at hspliced hfold
    have hsplice : splice (Text.size front) (gap ++ (old ++ after)) (e :: es) =
        gap ++ (e.text ++ splice e.stop after es) := by
      have hgap : e.start - Text.size front = Text.size gap := by
        rw [hstart, Text.size_append, Nat.add_sub_cancel_left]
      have hold : e.stop - e.start = Text.size old := by
        rw [hstop, hstart, Nat.add_sub_cancel_left]
      rw [splice, hgap, Text.splitAtByte?_size]
      simp only
      rw [hold, Text.splitAtByte?_size]
      simp only [List.append_assoc]
    rw [hsplice]
    refine ⟨.edit ?_ hspliced, ?_⟩
    · rw [hs, hstart, Text.size_append]
      exact Text.slice?_size front gap _
    · rw [List.foldrM_cons, hfold, Option.bind_eq_bind, Option.bind_some, ← List.append_assoc,
        List.append_assoc _ old, replace?_eq hstart hstop, List.append_assoc]

/-- How much longer a text gets by its edits. -/
theorem Spliced.size_add {source text : Text} {done : Nat} {es : List Edit}
    (h : Spliced source done es text) (hes : ∀ e ∈ es, e.start ≤ e.stop) :
    done + Text.size text + (es.map fun e => e.stop - e.start).sum =
      Text.size source + (es.map fun e => Text.size e.text).sum := by
  induction h with
  | rest hrest =>
    have hsize := Text.size_slice? hrest
    simpa using hsize
  | edit hgap _ ih =>
    obtain ⟨hle, hes⟩ := List.forall_mem_cons.1 hes
    have hsize := Text.size_slice? hgap
    have hrest := ih hes
    simp only [Text.size_append, List.map_cons, List.sum_cons]
    omega

private theorem applyAll_ok_iff {source : Text} {edits : List Edit} :
    (∃ text, applyAll source edits = .ok text) ↔
      (∀ e ∈ edits, e.Fits source) ∧ (ordered edits).IsChain Apart := by
  have hmem {e : Edit} : e ∈ ordered edits ↔ e ∈ edits := (List.mergeSort_perm edits before).mem_iff
  have hnone : firstFault? source 0 (ordered edits) = none ↔
      (∀ e ∈ edits, e.Fits source) ∧ (ordered edits).IsChain Apart := by
    rw [firstFault?_eq_none_iff]
    simp [hmem]
  rw [← hnone, applyAll]
  split
  · next h => simp [h]
  · next h => simp [h]

theorem spliced_of_applyAll {source text : Text} {edits : List Edit}
    (h : applyAll source edits = .ok text) :
    Spliced source 0 (ordered edits) text ∧ (ordered edits).foldrM replace? source = some text := by
  rw [applyAll] at h
  split at h
  · cases h
  · next hnone =>
    obtain rfl := Except.ok.inj h
    exact splice_spliced (List.nil_append source).symm hnone

end Edit

/-- Committing a batch of edits to a document in place. -/
def Document.transaction (edits : List Edit) : ExceptT Error (StateM Document) Nat := do
  let d ← get
  let text ← ExceptT.mk (pure (Edit.applyAll d.text edits))
  set { d with text }
  return edits.length

private theorem Document.transaction_run (d : Document) (edits : List Edit) :
    (transaction edits).run.run d =
      match d.commit edits with
      | .ok (n, d') => (.ok n, d')
      | .error e => (.error e, d) := by
  have hrun : (transaction edits).run.run d = (ExceptT.bindCont (fun text => do
      set { d with text }
      return edits.length : Text → ExceptT Error (StateM Document) Nat)
      (Edit.applyAll d.text edits)) d := rfl
  rw [hrun, commit]
  cases Edit.applyAll d.text edits with
  | ok text => rfl
  | error e => rfl

/-- A batch can be applied if its edits are in the text and, in the order of their ranges, apart.
What comes out is the text between them with their texts, those put in at one place in the order
given and before what is replaced there. It depends on no other order of the edits, and a commit that
fails leaves the document as it is. -/
theorem Edit.applyAll_spliced (source : Text) (edits : List Edit) :
    ∃ es, StablySorted edits es ∧ (∀ fs, StablySorted edits fs → fs = es) ∧
      ((∃ text, applyAll source edits = .ok text) ↔
        (∀ e ∈ edits, e.Fits source) ∧ es.IsChain Apart) ∧
      (∀ text, applyAll source edits = .ok text →
        Spliced source 0 es text ∧ es.foldrM replace? source = some text ∧
        ∀ n, ∃ before after, es = before ++ (edits.filter (·.range = (n, n)) ++ after) ∧
          (∀ e ∈ before, e.start < n) ∧ ∀ e ∈ after, n ≤ e.start ∧ n < e.stop) ∧
      (∀ edits', SameOrder edits' edits → applyAll source edits' = applyAll source edits) ∧
      ∀ d : Document, d.text = source → ∀ fault, applyAll source edits = .error fault →
        d.commit edits = .error fault ∧
          (Document.transaction edits).run.run d = (.error fault, d) := by
  have hsorted := stablySorted_ordered edits
  refine ⟨ordered edits, hsorted, fun fs hfs => hfs.unique hsorted, applyAll_ok_iff,
    fun text h => ?_, fun edits' hsame => ?_, fun d hd fault h => ?_⟩
  · obtain ⟨hspliced, hreplace⟩ := spliced_of_applyAll h
    refine ⟨hspliced, hreplace, fun n => ?_⟩
    obtain ⟨before, after, hes, hbefore, hafter⟩ := hsorted.exists_append (n, n)
    have hle {e : Edit} (hm : e ∈ ordered edits) : e.start ≤ e.stop :=
      ((applyAll_ok_iff.1 ⟨text, h⟩).1 e (hsorted.stable.mem_iff.1 hm)).le
    refine ⟨before, after, hes, fun e he => ?_, fun e he => ?_⟩
    · have hle := hle (hes ▸ List.mem_append_left _ he)
      have hlt := hbefore e he
      omega
    · have hle := hle (hes ▸ List.mem_append_right _ (List.mem_append_right _ he))
      have hlt := hafter e he
      omega
  · have hordered : ordered edits' = ordered edits := by
      have hsorted' := stablySorted_ordered edits'
      have hmoved : StablySorted edits (ordered edits') :=
        ⟨hsorted'.sorted, fun r => (hsorted'.stable r).trans (hsame r)⟩
      exact hmoved.unique hsorted
    rw [applyAll, applyAll, hordered]
  · have hcommit : d.commit edits = .error fault := by rw [Document.commit, hd, h]
    exact ⟨hcommit, by rw [Document.transaction_run, hcommit]⟩

example : Edit.applyAll "é = 1".toList
    [.replace 3 4 "≠".toList, .insert 3 "(".toList, .insert 0 "x".toList, .insert 3 "?".toList] =
      .ok "xé (?≠ 1".toList := by cbv

end Javadoc
