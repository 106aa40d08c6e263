import Javadoc.Proofs.Java.Positions
import Javadoc.Proofs.Sync.Segments

/-! How the segments of a type lie. They follow one another without a gap from its first to its last
byte, each byte is in a segment of the innermost type around it, and the path on a segment is the one
under which the fields and the owners of entries of that type are listed. So a change of a field is
brought to the text of the type that declares the field, and to no other one. -/
namespace Javadoc

/-- A type in a tree of nested types, with the types around it from the outermost one inwards. -/
structure Lineage where
  outer : List ClassDecl
  self : ClassDecl

namespace Lineage

def chain (l : Lineage) : List ClassDecl := l.outer ++ [l.self]

def path (l : Lineage) : Text := Text.joinWith ['.'] (l.chain.map fun c => c.own.name)

def under (c : ClassDecl) (l : Lineage) : Lineage := ⟨c :: l.outer, l.self⟩

private theorem chain_ne_nil (l : Lineage) :
    l.chain ≠ [] := List.append_ne_nil_of_right_ne_nil _ (by simp)

private theorem self_under (c : ClassDecl) (l : Lineage) : (l.under c).self = l.self := rfl

private theorem chain_under (c : ClassDecl) (l : Lineage) : (l.under c).chain = c :: l.chain := rfl

private theorem path_under (c : ClassDecl) (l : Lineage) :
    (l.under c).path = c.own.name ++ '.' :: l.path := by
  obtain ⟨d, ds, hd⟩ := List.exists_cons_of_ne_nil l.chain_ne_nil
  rw [path, path, chain_under, hd]
  simp [Text.joinWith]

end Lineage

namespace ClassDecl

/-- What holds of a type if it holds of the types nested in it holds of all types. -/
@[elab_as_elim]
theorem nested_induction {P : ClassDecl → Prop}
    (step : ∀ own nested, (∀ n ∈ nested, P n) → P (mk own nested)) (c : ClassDecl) : P c :=
  -- the lists of nested types have a motive of their own, so that the recursor is applied by hand
  @ClassDecl.rec P (fun cs => ∀ c ∈ cs, P c) step (by simp)
    (fun _ _ hc hcs => List.forall_mem_cons.2 ⟨hc, hcs⟩) c

mutual

def lineages : ClassDecl → List Lineage
  | mk own nested => ⟨[], mk own nested⟩ :: (lineagesOf nested).map (Lineage.under (mk own nested))

def lineagesOf : List ClassDecl → List Lineage
  | [] => []
  | c :: cs => lineages c ++ lineagesOf cs

end

private theorem mem_lineagesOf {cs : List ClassDecl} {l : Lineage} :
    l ∈ lineagesOf cs ↔ ∃ c ∈ cs, l ∈ c.lineages := by
  induction cs with
  | nil => simp [lineagesOf]
  | cons c cs ih => simp [lineagesOf, ih]

private theorem root_mem_lineages (c : ClassDecl) : ⟨[], c⟩ ∈ c.lineages := by
  cases c with
  | mk own nested =>
    rw [lineages]
    exact List.mem_cons_self

private theorem under_mem_lineages {own : ClassInfo} {nested : List ClassDecl} {n : ClassDecl}
    (hn : n ∈ nested) {l : Lineage} (hl : l ∈ n.lineages) :
    l.under (mk own nested) ∈ (mk own nested).lineages := by
  rw [lineages]
  exact List.mem_cons_of_mem _ (List.mem_map_of_mem (mem_lineagesOf.2 ⟨n, hn, hl⟩))

private theorem forall_mem_lineages {P : Lineage → Prop} {own : ClassInfo}
    {nested : List ClassDecl} :
    (∀ l ∈ (mk own nested).lineages, P l) ↔
      P ⟨[], mk own nested⟩ ∧ ∀ n ∈ nested, ∀ l ∈ n.lineages, P (l.under (mk own nested)) := by
  rw [lineages, List.forall_mem_cons, List.forall_mem_map]
  simp only [mem_lineagesOf]
  refine and_congr Iff.rfl ⟨fun h n hn l hl => h l ⟨n, hn, hl⟩, ?_⟩
  rintro h l ⟨n, hn, hl⟩
  exact h n hn l hl

/-- A type ends behind its start, and the types nested in it lie inside of it, one behind the
other. -/
structure Orderly (c : ClassDecl) : Prop where
  proper : c.own.start ≤ c.own.stop
  inside : ∀ n ∈ c.nested, c.own.start ≤ n.own.start ∧ n.own.stop ≤ c.own.stop
  ordered : c.nested.Pairwise fun m n => m.own.stop ≤ n.own.start

/-- Whether a type and all types nested in it are orderly. -/
def AllOrderly (c : ClassDecl) : Prop := ∀ l ∈ c.lineages, l.self.Orderly

private theorem allOrderly_mk {own : ClassInfo} {nested : List ClassDecl} :
    (mk own nested).AllOrderly ↔ (mk own nested).Orderly ∧ ∀ n ∈ nested, n.AllOrderly :=
  forall_mem_lineages

/-- A type that is nested in one of the types is one of them itself. -/
theorem exists_lineage_of_nested (c : ClassDecl) :
    ∀ l ∈ c.lineages, ∀ n ∈ l.self.nested, ∃ k ∈ c.lineages, k.self = n := by
  induction c using nested_induction with
  | step own nested ih =>
    refine forall_mem_lineages.2 ⟨fun n hn => ?_, fun m hm l hl n hn => ?_⟩
    · exact ⟨_, under_mem_lineages hn n.root_mem_lineages, rfl⟩
    · obtain ⟨k, hk, rfl⟩ := ih m hm l hl n hn
      exact ⟨_, under_mem_lineages hm hk, rfl⟩

/-- Whether every type in a type starts and ends between two characters of a text. -/
def Cuts (c : ClassDecl) (source : Text) : Prop :=
  ∀ l ∈ c.lineages,
    Text.isBoundary l.self.own.start source ∧ Text.isBoundary l.self.own.stop source

end ClassDecl

def ClassInfo.Covers (own : ClassInfo) (b : Nat) : Prop := own.start ≤ b ∧ b < own.stop

namespace Segment

def Covers (s : Segment) (b : Nat) : Prop := s.start ≤ b ∧ b < s.stop

instance (s : Segment) (b : Nat) : Decidable (s.Covers b) := inferInstanceAs (Decidable (_ ∧ _))

def Tiles (start stop : Nat) : List Segment → Prop
  | [] => start = stop
  | s :: ss => s.start = start ∧ s.start ≤ s.stop ∧ Tiles s.stop stop ss

def gaps (path : Text) (cursor stop : Nat) : List ClassDecl → List Segment
  | [] => [⟨cursor, stop, path⟩]
  | c :: cs => ⟨cursor, c.own.start, path⟩ :: gaps path c.own.stop stop cs

section Tiles

variable {a b c : Nat} {ss ts : List Segment}

private theorem Tiles.append (h : Tiles a b ss) (h' : Tiles b c ts) : Tiles a c (ss ++ ts) := by
  induction ss generalizing a with
  | nil =>
    cases h
    exact h'
  | cons s ss ih =>
    obtain ⟨hstart, hle, h⟩ := h
    exact ⟨hstart, hle, ih h⟩

private theorem Tiles.le (h : Tiles a b ss) : a ≤ b := by
  induction ss generalizing a with
  | nil => exact h.le
  | cons s ss ih =>
    obtain ⟨rfl, hle, h⟩ := h
    exact hle.trans (ih h)

private theorem Tiles.le_start (h : Tiles a b ss) : ∀ s ∈ ss, a ≤ s.start := by
  induction ss generalizing a with
  | nil => nofun
  | cons s ss ih =>
    obtain ⟨rfl, hle, h⟩ := h
    refine List.forall_mem_cons.2 ⟨le_rfl, fun t ht => ?_⟩
    exact hle.trans (ih h t ht)

/-- Every byte lies in exactly one of the segments. -/
theorem Tiles.exists_filter (h : Tiles a b ss) {i : Nat} (ha : a ≤ i) (hb : i < b) :
    ∃ s, ss.filter (fun s => s.Covers i) = [s] := by
  induction ss generalizing a with
  | nil =>
    cases h
    omega
  | cons s ss ih =>
    obtain ⟨rfl, hle, h⟩ := h
    -- the segments behind one that covers the byte start behind the byte
    by_cases hs : i < s.stop
    · have hrest : ss.filter (fun s => s.Covers i) = [] := by
        apply List.filter_eq_nil_iff.2
        intro t ht hcovers
        have hstart := h.le_start t ht
        have hcovers := (of_decide_eq_true hcovers).1
        omega
      refine ⟨s, ?_⟩
      rw [List.filter_cons, if_pos (decide_eq_true ⟨ha, hs⟩), hrest]
    · have hno : ¬ s.Covers i := fun hc => hs hc.2
      rw [List.filter_cons, if_neg (by simpa using hno)]
      exact ih h (by omega)

/-- What the segments cut out of a row of bytes is, put together, what the whole stretch cuts out. -/
theorem Tiles.flatMap_extract (h : Tiles a b ss) (bytes : List UInt8) :
    ss.flatMap (fun s => bytes.extract s.start s.stop) = bytes.extract a b := by
  induction ss generalizing a with
  | nil =>
    cases h
    simp [List.extract_eq_take_drop]
  | cons s ss ih =>
    obtain ⟨rfl, hle, h⟩ := h
    have hle' := h.le
    rw [List.flatMap_cons, ih h]
    simp only [List.extract_eq_take_drop]
    have hsplit : b - s.start = (s.stop - s.start) + (b - s.stop) := by omega
    rw [hsplit, List.take_add, List.drop_drop, Nat.add_sub_cancel' hle]

/-- Segments whose ends lie between characters cut a text into pieces. -/
theorem Tiles.slice?_eq (h : Tiles a b ss) {source : Text} (ha : Text.isBoundary a source)
    (hends : ∀ s ∈ ss, Text.isBoundary s.stop source) :
    (∀ s ∈ ss, Text.slice? s.start s.stop source = some (s.text source)) ∧
      Text.slice? a b source = some (ss.flatMap (text source)) := by
  induction ss generalizing a with
  | nil =>
    cases h
    obtain ⟨piece, hpiece⟩ := Text.exists_slice? le_rfl ha ha
    have hsize := Text.size_slice? hpiece
    cases piece with
    | nil => exact ⟨nofun, hpiece⟩
    | cons c cs =>
      have hpos := Char.utf8Size_pos c
      simp only [Text.size] at hsize
      omega
  | cons s ss ih =>
    obtain ⟨rfl, hle, h⟩ := h
    obtain ⟨hstop, hends⟩ := List.forall_mem_cons.1 hends
    obtain ⟨piece, hpiece⟩ := Text.exists_slice? hle ha hstop
    have htext : Text.slice? s.start s.stop source = some (s.text source) := by
      rw [text, hpiece, Option.getD_some]
    obtain ⟨hpieces, hrest⟩ := ih h hstop hends
    exact ⟨List.forall_mem_cons.2 ⟨htext, hpieces⟩, Text.slice?_append htext hrest⟩

end Tiles

/-- A segment of a type has the path of the type, and ends where the type or one nested in it has an
end. -/
theorem mem_gaps {path : Text} {cursor stop : Nat} {cs : List ClassDecl} {s : Segment}
    (h : s ∈ gaps path cursor stop cs) :
    s.path = path ∧ (s.stop = stop ∨ ∃ c ∈ cs, s.stop = c.own.start) := by
  induction cs generalizing cursor with
  | nil =>
    rw [List.mem_singleton.1 h]
    exact ⟨rfl, .inl rfl⟩
  | cons c cs ih =>
    rcases List.mem_cons.1 h with rfl | h
    · exact ⟨rfl, .inr ⟨c, List.mem_cons_self, rfl⟩⟩
    · obtain ⟨hpath, hstop⟩ := ih h
      refine ⟨hpath, hstop.imp_right ?_⟩
      rintro ⟨d, hd, hstop⟩
      exact ⟨d, List.mem_cons_of_mem _ hd, hstop⟩

private theorem gaps_ne_nil (path : Text) (cursor stop : Nat) (cs : List ClassDecl) :
    gaps path cursor stop cs ≠ [] := by
  cases cs <;> simp [gaps]

/-- A byte that lies in none of the nested types lies in a segment of the type itself. -/
theorem exists_mem_gaps (path : Text) {cursor stop i : Nat} {cs : List ClassDecl} (ha : cursor ≤ i)
    (hb : i < stop) (hcs : ∀ c ∈ cs, ¬ c.own.Covers i) :
    ∃ s ∈ gaps path cursor stop cs, s.Covers i := by
  induction cs generalizing cursor with
  | nil => exact ⟨_, List.mem_singleton_self _, ha, hb⟩
  | cons c cs ih =>
    obtain ⟨hc, hcs⟩ := List.forall_mem_cons.1 hcs
    by_cases hi : i < c.own.start
    · exact ⟨_, List.mem_cons_self, ha, hi⟩
    · have hstop : c.own.stop ≤ i := by
        by_contra hlt
        exact hc ⟨by omega, by omega⟩
      obtain ⟨s, hs, hcovers⟩ := ih hstop hcs
      exact ⟨s, List.mem_cons_of_mem _ hs, hcovers⟩

end Segment

namespace Lineage

def segments (l : Lineage) (path : Text) : List Segment :=
  Segment.gaps path l.self.own.start l.self.own.stop l.self.nested

end Lineage

namespace Segment
open ClassDecl

private theorem perm_ofRest {path : Text} (cursor stop : Nat) {cs : List ClassDecl}
    (h : ∀ c ∈ cs, (ofClass (path ++ '.' :: c.own.name) c).Perm
      (c.lineages.flatMap fun l => l.segments (path ++ '.' :: l.path))) :
    (ofRest path cursor stop cs).Perm (gaps path cursor stop cs ++
      (lineagesOf cs).flatMap fun l => l.segments (path ++ '.' :: l.path)) := by
  induction cs generalizing cursor with
  | nil => exact .refl _
  | cons c cs ih =>
    obtain ⟨hc, hcs⟩ := List.forall_mem_cons.1 h
    have hboth := (hc.append (ih c.own.stop hcs)).cons ⟨cursor, c.own.start, path⟩
    rw [ofRest, lineagesOf, List.flatMap_append]
    exact hboth.trans ((List.perm_append_comm_assoc _ _ _).cons _)

/-- The segments of a type are those of each type in it, with the dotted path of that type. -/
theorem perm_ofClass (c : ClassDecl) (front : Text) :
    (ofClass (front ++ c.own.name) c).Perm
      (c.lineages.flatMap fun l => l.segments (front ++ l.path)) := by
  induction c using nested_induction generalizing front with
  | step own nested ih =>
    have hnested (n : ClassDecl) (hn : n ∈ nested) :
        (ofClass (front ++ own.name ++ '.' :: n.own.name) n).Perm
          (n.lineages.flatMap fun l => l.segments (front ++ own.name ++ '.' :: l.path)) := by
      simpa only [List.append_assoc, List.singleton_append] using
        ih n hn (front ++ own.name ++ ['.'])
    refine (perm_ofRest own.start own.stop hnested).trans (.of_eq ?_)
    rw [lineages, List.flatMap_cons, List.flatMap_map]
    simp only [Lineage.path_under, ← List.append_assoc]
    rfl

private theorem perm_all (c : ClassDecl) :
    (all c).Perm (c.lineages.flatMap fun l => l.segments l.path) :=
  perm_ofClass c []

private theorem mem_all_of_mem_segments {c : ClassDecl} {l : Lineage} (hl : l ∈ c.lineages)
    {s : Segment}
    (hs : s ∈ l.segments l.path) : s ∈ all c :=
  (perm_all c).mem_iff.2 (List.mem_flatMap.2 ⟨l, hl, hs⟩)

private theorem isBoundary_stop_of_mem_all {c : ClassDecl} {source : Text} (h : c.Cuts source) :
    ∀ s ∈ all c, Text.isBoundary s.stop source := by
  intro s hs
  obtain ⟨l, hl, hs⟩ := List.mem_flatMap.1 ((perm_all c).mem_iff.1 hs)
  obtain ⟨-, hstop | ⟨n, hn, hstop⟩⟩ := mem_gaps hs
  · rw [hstop]
    exact (h l hl).2
  · obtain ⟨k, hk, rfl⟩ := c.exists_lineage_of_nested l hl n hn
    rw [hstop]
    exact (h k hk).1

private theorem tiles_ofRest {path : Text} {cursor stop : Nat} {cs : List ClassDecl}
    (h : ∀ c ∈ cs, ∀ p, Tiles c.own.start c.own.stop (ofClass p c)) (hle : cursor ≤ stop)
    (hcs : ∀ c ∈ cs, cursor ≤ c.own.start ∧ c.own.stop ≤ stop)
    (hordered : cs.Pairwise fun c d => c.own.stop ≤ d.own.start) :
    Tiles cursor stop (ofRest path cursor stop cs) := by
  induction cs generalizing cursor with
  | nil => exact ⟨rfl, hle, rfl⟩
  | cons c cs ih =>
    obtain ⟨hc, htiles⟩ := List.forall_mem_cons.1 h
    obtain ⟨⟨hstart, hstop⟩, hin⟩ := List.forall_mem_cons.1 hcs
    obtain ⟨hbehind, hordered⟩ := List.pairwise_cons.1 hordered
    have hrest := ih htiles hstop (fun d hd => ⟨hbehind d hd, (hin d hd).2⟩) hordered
    exact ⟨rfl, hstart, (hc _).append hrest⟩

private theorem tiles_ofClass {c : ClassDecl} (h : c.AllOrderly) (path : Text) :
    Tiles c.own.start c.own.stop (ofClass path c) := by
  induction c using nested_induction generalizing path with
  | step own nested ih =>
    obtain ⟨hc, hn⟩ := allOrderly_mk.1 h
    exact tiles_ofRest (fun n hmem p => ih n hmem (hn n hmem) p) hc.proper hc.inside hc.ordered

end Segment

namespace ClassDecl

/-- The types nested in a type lie inside of it, at any depth. -/
theorem AllOrderly.inside {c : ClassDecl} (h : c.AllOrderly) :
    ∀ l ∈ c.lineages, c.own.start ≤ l.self.own.start ∧ l.self.own.stop ≤ c.own.stop := by
  induction c using nested_induction with
  | step own nested ih =>
    obtain ⟨hc, hnested⟩ := allOrderly_mk.1 h
    refine forall_mem_lineages.2 ⟨⟨le_rfl, le_rfl⟩, fun n hn l hl => ?_⟩
    have hin := hc.inside n hn
    have hl := ih n hn (hnested n hn) l hl
    exact ⟨hin.1.trans hl.1, hl.2.trans hin.2⟩

/-- Of the types nested in an orderly type at most one covers a byte. -/
theorem Orderly.eq_of_covers {c m n : ClassDecl} (h : c.Orderly) (hm : m ∈ c.nested)
    (hn : n ∈ c.nested) {i : Nat} (hmi : m.own.Covers i) (hni : n.own.Covers i) : m = n := by
  by_contra hne
  have hapart : c.nested.Pairwise fun m n => m.own.stop ≤ n.own.start ∨ n.own.stop ≤ m.own.start :=
    h.ordered.imp Or.inl
  have : Std.Symm fun m n : ClassDecl => m.own.stop ≤ n.own.start ∨ n.own.stop ≤ m.own.start :=
    ⟨fun _ _ => Or.symm⟩
  have hmn := hapart.forall hm hn hne
  obtain ⟨hstart, hstop⟩ := hmi
  obtain ⟨hstart', hstop'⟩ := hni
  omega

/-- A lineage whose types are exactly those that a byte lies in. -/
def Innermost (c : ClassDecl) (i : Nat) (l : Lineage) : Prop :=
  l ∈ c.lineages ∧ ∀ m ∈ c.lineages, m.self.own.Covers i ↔ m.chain <+: l.chain

private theorem exists_chain (c : ClassDecl) : ∀ l ∈ c.lineages, ∃ cs, l.chain = c :: cs := by
  cases c with
  | mk own nested =>
    exact forall_mem_lineages.2 ⟨⟨[], rfl⟩, fun n hn l hl => ⟨l.chain, rfl⟩⟩

/-- Every byte of an orderly type has an innermost type around it, and lies in none of the types that
are nested in that one. -/
theorem AllOrderly.exists_innermost {c : ClassDecl} (h : c.AllOrderly) {i : Nat}
    (hi : c.own.Covers i) :
    ∃ l, c.Innermost i l ∧ l.self.own.Covers i ∧ ∀ n ∈ l.self.nested, ¬ n.own.Covers i := by
  induction c using nested_induction with
  | step own nested ih =>
    obtain ⟨hc, hnested⟩ := allOrderly_mk.1 h
    -- either the byte lies in a nested type, which has an innermost type around it, or in none
    by_cases hex : ∃ n ∈ nested, n.own.Covers i
    · obtain ⟨n, hn, hni⟩ := hex
      obtain ⟨l, ⟨hl, hchain⟩, hself, hnone⟩ := ih n hn (hnested n hn) hni
      refine ⟨l.under (mk own nested), ⟨?_, forall_mem_lineages.2 ⟨?_, fun m hm k hk => ?_⟩⟩, hself,
        hnone⟩
      · exact under_mem_lineages hn hl
      · exact iff_of_true hi ⟨l.chain, rfl⟩
      · rw [Lineage.chain_under, Lineage.chain_under, List.cons_prefix_cons]
        by_cases hmn : m = n
        · subst hmn
          simp only [true_and]
          exact hchain k hk
        · -- another type beside the one that covers the byte covers it nowhere
          refine iff_of_false (fun hki => hmn ?_) fun hpre => hmn ?_
          · have hin := (hnested m hm).inside k hk
            exact hc.eq_of_covers hm hn ⟨hin.1.trans hki.1, hki.2.trans_le hin.2⟩ hni
          · obtain ⟨ks, hks⟩ := m.exists_chain k hk
            obtain ⟨ls, hls⟩ := n.exists_chain l hl
            rw [hks, hls, List.cons_prefix_cons] at hpre
            exact hpre.2.1
    · have hnone : ∀ n ∈ nested, ¬ n.own.Covers i := fun n hn hni => hex ⟨n, hn, hni⟩
      refine ⟨⟨[], mk own nested⟩, ⟨?_, forall_mem_lineages.2 ⟨?_, fun m hm k hk => ?_⟩⟩, hi, hnone⟩
      · exact root_mem_lineages _
      · exact iff_of_true hi (List.prefix_refl _)
      · refine iff_of_false (fun hki => hnone m hm ?_) fun hpre => k.chain_ne_nil ?_
        · have hin := (hnested m hm).inside k hk
          exact ⟨hin.1.trans hki.1, hki.2.trans_le hin.2⟩
        · rw [Lineage.chain_under] at hpre
          exact List.prefix_nil.1 (List.cons_prefix_cons.1 hpre).2

private theorem withPathsEach_eq {outer : Text} {cs : List ClassDecl}
    (h : ∀ c ∈ cs, withPathsFrom outer c =
      c.lineages.map fun l => (outer ++ '.' :: l.path, l.self.own)) :
    withPathsEach outer cs =
      (lineagesOf cs).map fun l => (outer ++ '.' :: l.path, l.self.own) := by
  induction cs with
  | nil => rfl
  | cons c cs ih =>
    obtain ⟨hc, hcs⟩ := List.forall_mem_cons.1 h
    rw [withPathsEach, lineagesOf, hc, ih hcs, List.map_append]

/-- Below a type with a name, the walk puts the path of the outer type before those of the nested
ones. -/
theorem withPathsFrom_eq {outer : Text} (h : outer ≠ []) (c : ClassDecl) :
    withPathsFrom outer c = c.lineages.map fun l => (outer ++ '.' :: l.path, l.self.own) := by
  induction c using nested_induction generalizing outer with
  | step own nested ih =>
    have hpath : pathIn outer own.name = outer ++ '.' :: own.name := by simp [pathIn, h]
    have hne : outer ++ '.' :: own.name ≠ [] := by simp
    rw [withPathsFrom, hpath, withPathsEach_eq fun n hn => ih n hn hne, lineages, List.map_cons,
      List.map_map]
    congr 1
    refine List.map_congr_left fun l _ => ?_
    rw [Function.comp_apply, Lineage.path_under, Lineage.self_under, List.append_assoc]
    rfl

/-- The walk over a type with a name lists the types in it under their paths. -/
theorem withPaths_eq {c : ClassDecl} (h : c.own.name ≠ []) :
    c.withPaths = c.lineages.map fun l => (l.path, l.self.own) := by
  cases c with
  | mk own nested =>
    have h : own.name ≠ [] := h
    have hpath : pathIn [] own.name = own.name := rfl
    rw [withPaths, withPathsFrom, hpath, withPathsEach_eq fun n _ => withPathsFrom_eq h n, lineages,
      List.map_cons, List.map_map]
    congr 1
    refine List.map_congr_left fun l _ => ?_
    rw [Function.comp_apply, Lineage.path_under, Lineage.self_under]
    rfl

/-- How the segments of a type lie: one behind the other from its first to its last byte, so that put
together they are its text, and each byte in a segment of the innermost type around it. -/
structure Tiled (c : ClassDecl) : Prop where
  tiles : Segment.Tiles c.own.start c.own.stop (Segment.all c)
  bytes (source : List UInt8) : (Segment.all c).flatMap (fun s => source.extract s.start s.stop) =
    source.extract c.own.start c.own.stop
  texts (source : Text) : c.Cuts source →
    (∀ s ∈ Segment.all c, Text.slice? s.start s.stop source = some (s.text source)) ∧
      Text.slice? c.own.start c.own.stop source = some ((Segment.all c).flatMap (Segment.text source))
  innermost (i : Nat) : c.own.Covers i → ∃ l, c.Innermost i l ∧
    ∃ s, (Segment.all c).filter (fun s => s.Covers i) = [s] ∧ s.path = l.path

private theorem AllOrderly.tiled {c : ClassDecl} (h : c.AllOrderly) : c.Tiled where
  tiles := Segment.tiles_ofClass h _
  bytes := (Segment.tiles_ofClass h _).flatMap_extract
  texts source hcuts := (Segment.tiles_ofClass h _).slice?_eq (hcuts _ c.root_mem_lineages).1
    (Segment.isBoundary_stop_of_mem_all hcuts)
  innermost i hi := by
    obtain ⟨l, hl, hself, hnone⟩ := h.exists_innermost hi
    obtain ⟨s, hs, hcovers⟩ := Segment.exists_mem_gaps l.path hself.1 hself.2 hnone
    obtain ⟨t, hfilter⟩ := (Segment.tiles_ofClass h c.own.name).exists_filter hi.1 hi.2
    -- the one segment at this byte is the one that the innermost type has there
    have hst : s ∈ [t] := by
      rw [← hfilter, List.mem_filter]
      exact ⟨Segment.mem_all_of_mem_segments hl.1 hs, decide_eq_true hcovers⟩
    rw [List.mem_singleton] at hst
    exact ⟨l, hl, t, hfilter, hst ▸ (Segment.mem_gaps hs).1⟩

end ClassDecl

/-- How a change of a field gets to the text of a type: some type in it declares the field, and the
change is applied to the segments of that type and to none with another path. -/
structure FieldChange.Reaches (change : FieldChange) (changes : List FieldChange) (c : ClassDecl)
    (l : Lineage) : Prop where
  listed : l ∈ c.lineages
  declared : ∃ f ∈ l.self.own.fields, change.container = l.path ∧ change.field = f.name ∧
    change.new = Snapshot.describe f
  segments : l.segments l.path ≠ [] ∧ ∀ s ∈ l.segments l.path, s ∈ Segment.all c
  applied : ∀ s ∈ Segment.all c, change ∈ FieldChange.ofType changes s.path ↔ s.path = l.path

namespace ClassDecl

/-- What the paths of the types in a type lead to: the types themselves, their fields, the owners of
their entries, and the segments that a change of a field is applied to. -/
structure Traced (c : ClassDecl) : Prop where
  walk : c.withPaths = c.lineages.map fun l => (l.path, l.self.own)
  fields : Snapshot.fieldsOf c = c.lineages.flatMap fun l =>
    l.self.own.fields.map fun f => (⟨l.path, f.name⟩, f)
  owners : c.entryOwners = c.lineages.flatMap fun l =>
    (l.self.own.constructors ++ l.self.own.methods.filter fun m => m.role == .mutator).map
      fun m => (l.path, m)
  segments : (Segment.all c).Perm (c.lineages.flatMap fun l => l.segments l.path)
  changes (old : Snapshot) : ∀ change ∈ old.changes (Snapshot.ofClass c),
    ∃ l, change.Reaches (old.changes (Snapshot.ofClass c)) c l
  updated (source : Text) (changes : List FieldChange) :
    Synchronizer.updateClass source c changes =
      (Segment.all c).flatMap fun s => s.updated (FieldChange.ofType changes s.path) source

private theorem traced {c : ClassDecl} (h : c.own.name ≠ []) : c.Traced where
  walk := withPaths_eq h
  fields := by
    rw [Snapshot.fieldsOf, withPaths_eq h, List.flatMap_map]
  owners := by
    rw [entryOwners, withPaths_eq h, List.flatMap_map]
  segments := Segment.perm_all c
  changes old change hchange := by
    obtain ⟨hnew, -⟩ := Snapshot.mem_changes hchange
    obtain ⟨p, hp, f, hf, he⟩ := Snapshot.exists_field_of_mem hnew
    rw [withPaths_eq h] at hp
    obtain ⟨l, hl, rfl⟩ := List.mem_map.1 hp
    simp only [Prod.mk.injEq, FieldKey.mk.injEq] at he
    obtain ⟨⟨hcontainer, hfield⟩, hdescription⟩ := he
    refine ⟨l, hl, ⟨f, hf, hcontainer, hfield, hdescription⟩, ⟨?_, ?_⟩, fun s _ => ?_⟩
    · exact Segment.gaps_ne_nil _ _ _ _
    · exact fun s hs => Segment.mem_all_of_mem_segments hl hs
    · rw [FieldChange.ofType, List.mem_filter, beq_iff_eq, hcontainer]
      exact ⟨fun h => h.2.symm, fun h => ⟨hchange, h.symm⟩⟩
  updated source changes := Synchronizer.updateClass_eq_flatMap source c changes

private theorem mem_declaredEach {cs : List ClassDecl} {c : ClassDecl} (hc : c ∈ cs)
    {m : Java.Member}
    (hm : m ∈ c.declared) : m ∈ declaredEach cs := by
  induction cs with
  | nil => cases hc
  | cons d cs ih =>
    rw [declaredEach, List.mem_append]
    rcases List.mem_cons.1 hc with rfl | hc
    · exact .inl hm
    · exact .inr (ih hc)

private theorem nested_mem_declared (c : ClassDecl) :
    ∀ l ∈ c.lineages, .nested l.self ∈ c.declared := by
  induction c using nested_induction with
  | step own nested ih =>
    refine forall_mem_lineages.2 ⟨?_, fun n hn l hl => ?_⟩
    · rw [declared]
      exact List.mem_cons_self
    · rw [declared]
      exact List.mem_cons_of_mem _ (List.mem_append_right _ (mem_declaredEach hn (ih n hn l hl)))

private theorem Nests.orderly {c : ClassDecl} (h : c.Nests) : c.Orderly where
  proper := h.proper.le
  inside n hn := ⟨(h.inside n hn).1.le, (h.inside n hn).2.le⟩
  ordered := h.ordered

end ClassDecl

open Java in
/-- The type of a source has a name, the types in it lie one behind the other, and all of them start
and end between two characters. -/
theorem SourceFile.orderly_primary {path source : Text} {c : ClassDecl}
    (h : (read path source).primary? = some c) :
    c.AllOrderly ∧ c.Cuts source ∧ c.own.name ≠ [] := by
  have hc : c ∈ (read path source).classes := List.mem_of_head? h
  have hdeclared (l : Lineage) (hl : l ∈ c.lineages) :
      .nested l.self ∈ (read path source).declared :=
    ClassDecl.mem_declaredEach hc (c.nested_mem_declared l hl)
  refine ⟨fun l hl => ?_, fun l hl => ?_, ?_⟩
  · exact (types_of_mem_declared (hdeclared l hl)).2.orderly
  · exact ⟨isBoundary_start_of_mem_declared (hdeclared l hl),
      (types_of_mem_declared (hdeclared l hl)).1⟩
  · have hpath : (c.own.name, c.own) ∈ c.withPaths := by
      cases c
      exact List.mem_cons_self
    obtain ⟨t, ht, -, hname⟩ := (named_of_mem_read (List.mem_flatMap.2 ⟨c, hc, hpath⟩)).name
    exact hname ▸ Token.text_ne_nil_of_mem_scan ht

namespace Segment

/-- A type in a type in a type behind a letter of two bytes; the inmost one has a field with the given
comment. -/
def crate (comment : Text) : Text :=
  "// é\nclass A \x7b class B \x7b class C \x7b ".toList ++ comment ++
    " int c; \x7d int b; \x7d A(int c) \x7b\x7d \x7d".toList

end Segment
end Javadoc
