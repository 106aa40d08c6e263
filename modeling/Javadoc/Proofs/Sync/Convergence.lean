import Javadoc.Proofs.Sync.Application
import Javadoc.Proofs.Sync.Exactness

/-! Runs of a synchronizer over the versions of one file. The user changes comments of fields, the
file is observed, and the edits are applied. After every step the entries that were made from the
descriptions of fields say what the fields say now, and entries of other fields are untouched. -/
namespace Javadoc

namespace Entry

section

variable {changes : List FieldChange} (hc : ∀ c ∈ changes, Sound c) {line : Text}
  (hl : isPlain line)
include hc hl

/-- An entry for a field that no change is about stays as it is. -/
theorem renew_of_unchanged {field description : Text} (h : IsEntry field description line)
    (hf : IsName field) (hno : ∀ c ∈ changes, c.field ≠ field) : renew changes line = line :=
  renew_of_not_isEntry (fun c hm => (hc c hm).readable) hl fun c hm he =>
    hno c hm (he.field_unique h (hc c hm).name hf)

/-- An entry that a change is about becomes one with the new description. -/
theorem renew_of_isEntry (hn : '\n' ∉ line)
    (hd : changes.Pairwise fun c d => c.field ≠ d.field) {c : FieldChange} (hm : c ∈ changes)
    (h : IsEntry c.field c.old line) : IsEntry c.field c.new (renew changes line) := by
  rw [renew_eq_renewLine (fun c hm => (hc c hm).readable) hl hd hn hm h]
  exact ((renewLine_spec (hc c hm).readable hl hn).2.2.2.resolve_left fun hno => hno.1 h).2

end

end Entry

namespace Snapshot

theorem old_ne_new {s t : Snapshot} {change : FieldChange} (h : change ∈ s.changes t) :
    change.old ≠ change.new := by
  obtain ⟨⟨key, description⟩, -, hc⟩ := List.mem_filterMap.1 h
  simp only at hc
  split at hc
  · split at hc
    · cases hc
    · next hne =>
      cases hc
      exact hne
  · cases hc

private theorem mem_changes_of_get? {s t : Snapshot} {key : FieldKey} {old new : Text}
    (hs : s.get? key = some old) (ht : t.get? key = some new) (hne : old ≠ new) :
    ⟨key.container, key.field, old, new⟩ ∈ s.changes t :=
  List.mem_filterMap.2 ⟨_, OrderedMap.mem_of_get? ht, by simp [hs, hne]⟩

/-- The changes of the fields of one type are about different fields. -/
theorem pairwise_ofType_changes (s t : Snapshot) (path : Text) :
    (FieldChange.ofType (s.changes t) path).Pairwise fun c d => c.field ≠ d.field := by
  have hkeys : (s.changes t).Pairwise fun c d => c.container = d.container → c.field ≠ d.field := by
    -- a change has the key of the entry that it is made from
    have hstep {f : FieldKey × Text → Option FieldChange}
        (hf : ∀ e c, f e = some c → e.1 = ⟨c.container, c.field⟩) :
        (t.entries.filterMap f).Pairwise fun c d =>
          c.container = d.container → c.field ≠ d.field := by
      refine List.Pairwise.filterMap _ (fun e e' he c hc d hd hcontainer hfield => ?_) t.sorted
      rw [hf e c hc, hf e' d hd, hcontainer, hfield] at he
      simp at he
    refine hstep ?_
    rintro ⟨key, description⟩ c h
    dsimp only at h
    split at h
    · split at h
      · cases h
      · cases h
        rfl
    · cases h
  refine (List.Pairwise.filter _ hkeys).imp_of_mem fun hc hd hcd => hcd ?_
  have hc := (List.mem_filter.1 hc).2
  have hd := (List.mem_filter.1 hd).2
  simp only [beq_iff_eq] at hc hd
  rw [hc, hd]

/-- The entries of a line for a field follow its description. -/
def Follows (before after : Snapshot) (path line line' : Text) : Prop :=
  ∀ field description, before.get? ⟨path, field⟩ = some description →
    Entry.IsEntry field description line → ∃ description',
      after.get? ⟨path, field⟩ = some description' ∧ Entry.IsEntry field description' line'

/-- A line that is an entry for a field whose description is the same stays as it is. -/
def Keeps (before after : Snapshot) (path line line' : Text) : Prop :=
  ∀ field description written, before.get? ⟨path, field⟩ = some description →
    after.get? ⟨path, field⟩ = some description → Entry.IsEntry field written line → line' = line

private theorem Follows.trans {s t u : Snapshot} {path l m n : Text} (h : Follows s t path l m)
    (h' : Follows t u path m n) : Follows s u path l n := by
  intro field description hs he
  obtain ⟨d, ht, he⟩ := h field description hs he
  exact h' field d ht he

section

variable {s t : Snapshot} (hc : ∀ c ∈ s.changes t, Entry.Sound c) {path line : Text}
  (hl : Entry.isPlain line)
  (hnames : ∀ field description, s.get? ⟨path, field⟩ = some description → Entry.IsName field)
include hc hl hnames

private theorem keeps_renew :
    Keeps s t path line (Entry.renew (FieldChange.ofType (s.changes t) path) line) := by
  intro field description written hs ht he
  refine Entry.renew_of_unchanged (fun c hm => hc c (List.mem_filter.1 hm).1) hl he
    (hnames field description hs) fun c hm hfield => ?_
  obtain ⟨hm, hpath⟩ := List.mem_filter.1 hm
  obtain ⟨hnew, hold⟩ := mem_changes hm
  have hnew := OrderedMap.get?_of_mem hnew
  rw [beq_iff_eq] at hpath
  rw [hpath, hfield] at hnew hold
  exact old_ne_new hm (Option.some.inj (hold.symm.trans (hs.trans (ht.symm.trans hnew))))

private theorem follows_renew (hn : '\n' ∉ line)
    (hkeys : ∀ field, (s.get? ⟨path, field⟩).isSome → (t.get? ⟨path, field⟩).isSome) :
    Follows s t path line (Entry.renew (FieldChange.ofType (s.changes t) path) line) := by
  intro field description hs he
  obtain ⟨description', ht⟩ := Option.isSome_iff_exists.1 (hkeys field (by simp [hs]))
  refine ⟨description', ht, ?_⟩
  by_cases hd : description = description'
  · subst hd
    rwa [keeps_renew hc hl hnames field description description hs ht he]
  · have hm : (⟨path, field, description, description'⟩ : FieldChange) ∈
        FieldChange.ofType (s.changes t) path :=
      List.mem_filter.2 ⟨mem_changes_of_get? hs ht hd, by simp⟩
    exact Entry.renew_of_isEntry (fun c hm => hc c (List.mem_filter.1 hm).1) hl hn
      (pairwise_ofType_changes s t path) hm he

end

end Snapshot

/-- What is written in a constructor or setter, wherever it stands. -/
structure Owner where
  /-- The path of its type. -/
  path : Text
  /-- Its body, up to blanks. -/
  body? : Option Text
  /-- Its documentation comment. -/
  doc? : Option Text
  deriving DecidableEq

namespace Owner

def ofMethod (p : Text × Method) : Owner :=
  ⟨p.1, p.2.flatBody?, p.2.comment.doc?.map (·.text)⟩

/-- Two constructors or setters that differ in the lines of their comments alone, one by one. -/
structure Beside (R : Text → Text → Prop) (o o' : Owner) : Prop where
  path : o'.path = o.path
  body : o'.body? = o.body?
  doc : Option.Rel (fun t t' => List.Forall₂ R (Text.splitLines t) (Text.splitLines t')) o.doc? o'.doc?

private theorem Beside.trans {R S T : Text → Text → Prop} (h : ∀ l m n, R l m → S m n → T l n)
    {o o' o'' : Owner} (hr : o.Beside R o') (hs : o'.Beside S o'') : o.Beside T o'' := by
  refine ⟨hs.path.trans hr.path, hs.body.trans hr.body, ?_⟩
  obtain ⟨-, -, hr⟩ := hr
  obtain ⟨-, -, hs⟩ := hs
  generalize o.doc? = d, o'.doc? = d', o''.doc? = d'' at hr hs
  cases hr with
  | none =>
    cases hs
    exact .none
  | some hr =>
    cases hs with
    | some hs => exact .some (forall₂_trans h hr hs)

end Owner

/-- The constructors and setters of a type and of the types nested in it. -/
def ClassDecl.owners (c : ClassDecl) : List Owner := c.entryOwners.map Owner.ofMethod

namespace Synchronizer

open Java

/-- A type in which comments of fields have been changed: it has the same fields and the same
constructors and setters with the same comments. -/
structure Redescribed (c c' : ClassDecl) : Prop where
  name : c'.own.name = c.own.name
  fields : (Snapshot.fieldsOf c').map Prod.fst = (Snapshot.fieldsOf c).map Prod.fst
  owners : c'.owners = c.owners

/-- A step of a run. The user makes `text` of the file, it is observed, and the edits are applied. -/
inductive Step (path : Text) (s : Synchronizer) (source : Text) : Synchronizer → Text → Prop
  | intro {s' : Synchronizer} {text source' : Text} {c d : ClassDecl} {edits : List Edit}
    (old : (SourceFile.read path source).primary? = some c)
    (new : (SourceFile.read path text).primary? = some d)
    (redescribed : Redescribed c d)
    (plain : Entry.isPlain text)
    (differ : d.BodiesDiffer)
    (sheltered : EntriesSheltered (s.snapshot.changes (Snapshot.ofClass d)) text)
    (observed : s.observe (SourceFile.read path text) = (.ok edits, s'))
    (applied : Edit.applyAll text edits = .ok source') : Step path s source s' source'

/-- The runs that start with observing `first`. -/
inductive Run (path first : Text) : Synchronizer → Text → Prop
  | baseline {s₀ s : Synchronizer} (plain : Entry.isPlain first)
    (observed : s₀.observe (SourceFile.read path first) = (.ok [], s)) : Run path first s first
  | step {s s' : Synchronizer} {source source' : Text} :
    Run path first s source → Step path s source s' source' → Run path first s' source'

/-- What holds between steps: the synchronizer follows the type `c` of the file, and what it
recorded are the descriptions of `c`. -/
structure Following (path source : Text) (s : Synchronizer) (c : ClassDecl) : Prop where
  primary : (SourceFile.read path source).primary? = some c
  tracked : s.tracked?.any (Container.same ⟨path, c.own.name⟩)
  snapshot : s.snapshot = Snapshot.ofClass c
  recorded : ∃ path text d, (SourceFile.read path text).primary? = some d ∧ Entry.isPlain text ∧
    s.snapshot = Snapshot.ofClass d

section

variable {path source : Text} {c : ClassDecl}
  (h : (SourceFile.read path source).primary? = some c) {changes : List FieldChange}
include h

/-- What the updates of all comments leave of one of them. -/
theorem textAt_updates {p : Text × Method} (hp : p ∈ c.entryOwners) {d : DocComment}
    (hd : p.2.comment.doc? = some d) :
    Edit.textAt (c.entryOwners.filterMap (update? changes)) d =
      if p.2.flatBody?.isSome then Entry.update (FieldChange.ofType changes p.1) d.text
      else d.text := by
  have hupdate : update? changes p = if p.2.flatBody?.isSome ∧
      Entry.update (FieldChange.ofType changes p.1) d.text ≠ d.text then
        some (.replace d.start d.stop (Entry.update (FieldChange.ofType changes p.1) d.text))
      else none := by
    rw [update?, hd]
    cases p.2.flatBody? <;> simp
  rw [Edit.textAt]
  cases hfind : (c.entryOwners.filterMap (update? changes)).find? fun e => e.start == d.start with
  | none =>
    have hnone : update? changes p = none := by
      refine Option.eq_none_iff_forall_ne_some.2 fun e he => ?_
      have hno := List.find?_eq_none.1 hfind e (List.mem_filterMap.2 ⟨p, hp, he⟩)
      obtain ⟨-, d', hd', hstart⟩ := start_of_update? he
      obtain rfl : d' = d := Option.some.inj (hd'.symm.trans hd)
      simp [hstart] at hno
    rw [hupdate] at hnone
    split
    · next hb =>
      by_contra hne
      rw [if_pos ⟨hb, fun he => hne he.symm⟩] at hnone
      cases hnone
    · rfl
  | some e =>
    obtain ⟨q, hq, he⟩ := List.mem_filterMap.1 (List.mem_of_find?_eq_some hfind)
    have hstart : e.start = d.start := by simpa using List.find?_some hfind
    obtain ⟨-, d', hd', hstart'⟩ := start_of_update? he
    obtain rfl := eq_of_doc_start_eq h hq hp hd' hd (hstart'.symm.trans hstart)
    rw [hupdate] at he
    split at he
    · next hb =>
      cases he
      rw [if_pos hb.1]
      rfl
    · cases he

end

/-- The fields of a type are the keys of what is recorded of it. -/
theorem isSome_get?_ofClass (c : ClassDecl) (key : FieldKey) :
    ((Snapshot.ofClass c).get? key).isSome ↔ key ∈ (Snapshot.fieldsOf c).map Prod.fst := by
  rw [Snapshot.ofClass, OrderedMap.isSome_get?_ofList, List.map_map]
  rfl

private theorem Following.isName {path source : Text} {s : Synchronizer} {c : ClassDecl}
    (h : Following path source s c) {key : FieldKey} {description : Text}
    (hk : (Snapshot.ofClass c).get? key = some description) :
    Entry.IsName key.field ∧ Entry.isPlain description := by
  obtain ⟨path', text, d, hd, hp, hs⟩ := h.recorded
  rw [← h.snapshot, hs] at hk
  have hm := OrderedMap.mem_of_get? hk
  exact ⟨Snapshot.isName_of_mem_ofClass hd hp hm, Snapshot.isPlain_of_mem_ofClass hd hp hm⟩

def Carries (before after : Snapshot) (o : Owner) (line line' : Text) : Prop :=
  Snapshot.Keeps before after o.path line line' ∧
    (o.body?.isSome → Snapshot.Follows before after o.path line line')

private theorem carries_update {path source text : Text} {s : Synchronizer} {c d : ClassDecl}
    (h : Following path source s c) (hd : (SourceFile.read path text).primary? = some d)
    (hr : Redescribed c d) (hp : Entry.isPlain text) {p : Text × Method} (hm : p ∈ d.entryOwners)
    {e : DocComment} (he : p.2.comment.doc? = some e) :
    List.Forall₂ (Carries (Snapshot.ofClass c) (Snapshot.ofClass d) (.ofMethod p))
      (Text.splitLines e.text) (Text.splitLines (if p.2.flatBody?.isSome then
        Entry.update (FieldChange.ofType
          ((Snapshot.ofClass c).changes (Snapshot.ofClass d)) p.1) e.text else e.text)) := by
  have hsound := Snapshot.sound_of_mem_changes hd hp ⟨path, source, c, h.primary, rfl⟩
    fun e he => (h.isName (OrderedMap.get?_of_mem he)).2
  split
  · next hbody =>
    obtain ⟨l, -, -, hin, htext⟩ := exists_lexeme_of_doc hd hm he
    have hline : ∀ l ∈ Text.splitLines e.text, Entry.isPlain l ∧ '\n' ∉ l := fun l hl =>
      ⟨Entry.isPlain_of_isInfix hp ((Text.infix_of_mem_splitLines hl).trans (htext ▸ hin)),
        Text.not_mem_of_mem_splitLines hl⟩
    have hsound' : ∀ change ∈ FieldChange.ofType
        ((Snapshot.ofClass c).changes (Snapshot.ofClass d)) p.1, Entry.Sound change :=
      fun change hm => hsound change (List.mem_filter.1 hm).1
    rw [update_doc_eq hd hsound hp hm e he, Entry.renewText, Text.splitLines_joinLines]
    · rw [List.forall₂_map_right_iff, List.forall₂_same]
      intro l hl
      obtain ⟨hpl, hn⟩ := hline l hl
      refine ⟨Snapshot.keeps_renew hsound hpl fun field description hk => (h.isName hk).1,
        fun _ => Snapshot.follows_renew hsound hpl
          (fun field description hk => (h.isName hk).1) hn fun field hk => ?_⟩
      rw [isSome_get?_ofClass, hr.fields, ← isSome_get?_ofClass]
      exact hk
    · intro l hl
      obtain ⟨m, hm, rfl⟩ := List.mem_map.1 hl
      exact (Entry.renew_keeps (fun c hc => (hsound' c hc).readable) (hline m hm).1 (hline m hm).2).2
    · simpa using Text.splitLines_ne_nil e.text
  · next hbody =>
    rw [List.forall₂_same]
    exact fun l _ => ⟨fun _ _ _ _ _ _ => rfl, fun hb => absurd hb hbody⟩

/-- One step: the entries of the file follow the fields. -/
theorem Step.following {path source source' : Text} {s s' : Synchronizer} {c : ClassDecl}
    (h : Following path source s c) (hs : Step path s source s' source') :
    ∃ c', Following path source' s' c' ∧ List.Forall₂
      (fun o o' => o.Beside (Carries (Snapshot.ofClass c) (Snapshot.ofClass c') o) o')
        c.owners c'.owners := by
  obtain ⟨hold, hd, hr, hp, hdiffer, hsheltered, hobserved, happlied⟩ := hs
  rename_i text c₀ d edits
  obtain rfl : c₀ = c := Option.some.inj (hold.symm.trans h.primary)
  have htracked : s.tracked?.any (Container.same ⟨path, d.own.name⟩) := hr.name ▸ h.tracked
  have hplain : ∀ e ∈ s.snapshot.entries, Entry.isPlain e.2 := fun e he =>
    (h.isName (h.snapshot ▸ OrderedMap.get?_of_mem he)).2
  have hobserve := observe_eq_updates hd htracked (h.snapshot ▸ ⟨path, source, c₀, h.primary, rfl⟩)
    hplain hp hdiffer hsheltered
  rw [hobserved] at hobserve
  obtain ⟨hedits, rfl⟩ := Prod.ext_iff.1 hobserve
  rw [Except.ok.injEq] at hedits
  obtain ⟨d', hd', hsnapshot, htracked', hreword, hn⟩ := observe_spec hobserved
  obtain rfl : d' = d := Option.some.inj (hd'.symm.trans hd)
  obtain ⟨-, ps, -, -, happly, c', hc', hname, hsame, hall⟩ :=
    exists_primary?_reworded hd hreword hn
  rw [happlied, Except.ok.injEq] at happly
  subst happly
  refine ⟨c', ⟨hc', hname ▸ htracked', hsnapshot.trans hsame.symm,
    ⟨path, text, d', hd, hp, hsnapshot⟩⟩, ?_⟩
  rw [← hr.owners, hsame, ClassDecl.owners, ClassDecl.owners, List.forall₂_map_left_iff,
    List.forall₂_map_right_iff]
  refine ((List.forall₂_and_left _ _).2 ⟨fun p hp => hp, hall⟩).imp fun p p' hpp => ?_
  obtain ⟨hm, hpath, hbody, hdoc⟩ := hpp
  refine ⟨hpath, hbody, ?_⟩
  simp only [Owner.ofMethod, hdoc]
  cases he : p.2.comment.doc? with
  | none => exact .none
  | some e =>
    refine .some ?_
    rw [hedits, textAt_updates hd hm he, h.snapshot]
    exact carries_update h hd hr hp hm he

/-- After any run the entries that were made from the first descriptions say what the descriptions
are now. -/
theorem Run.following {path first source : Text} {s : Synchronizer} (h : Run path first s source) :
    ∃ c₀ c, (SourceFile.read path first).primary? = some c₀ ∧ Following path source s c ∧
      List.Forall₂ (fun o o' => o.Beside (fun l l' => o.body?.isSome →
        Snapshot.Follows (Snapshot.ofClass c₀) (Snapshot.ofClass c) o.path l l') o')
          c₀.owners c.owners := by
  induction h with
  | baseline hp hobserved =>
    obtain ⟨c, hc, hsnapshot, htracked, -, -⟩ := observe_spec hobserved
    refine ⟨c, c, hc, ⟨hc, htracked, hsnapshot, path, first, c, hc, hp, hsnapshot⟩,
      List.forall₂_same.2 fun o _ => ⟨rfl, rfl, ?_⟩⟩
    cases o.doc? with
    | none => exact .none
    | some text =>
      exact .some (List.forall₂_same.2 fun l _ _ field description hk he => ⟨_, hk, he⟩)
  | step _ hs ih =>
    obtain ⟨c₀, c, hc₀, hc, hall⟩ := ih
    obtain ⟨c', hc', hall'⟩ := hs.following hc
    refine ⟨c₀, c', hc₀, hc', forall₂_trans (fun o o' o'' ho ho' => ?_) hall hall'⟩
    refine ho.trans (fun l m n hlm hmn hb => ?_) ho'
    have hmn := hmn.2 (ho.body ▸ hb)
    rw [ho.path] at hmn
    exact (hlm hb).trans hmn

/-- After every step of a run the entries in the comments of constructors and setters with a body
that were made from the first descriptions of the fields say what the fields say now, and the
entries for fields whose descriptions the step has not changed are what they were. -/
theorem Run.step_converges {path first source source' : Text} {s s' : Synchronizer}
    (h : Run path first s source) (hs : Step path s source s' source') :
    ∃ c₀ c c', (SourceFile.read path first).primary? = some c₀ ∧
      (SourceFile.read path source).primary? = some c ∧
      (SourceFile.read path source').primary? = some c' ∧
      List.Forall₂ (fun o o' => o.Beside (fun l l' => o.body?.isSome →
        Snapshot.Follows (Snapshot.ofClass c₀) (Snapshot.ofClass c') o.path l l') o')
          c₀.owners c'.owners ∧
      List.Forall₂ (fun o o' => o.Beside
        (Snapshot.Keeps (Snapshot.ofClass c) (Snapshot.ofClass c') o.path) o')
          c.owners c'.owners := by
  obtain ⟨c₀, c', hc₀, hc', hfollows⟩ := (Run.step h hs).following
  obtain ⟨-, c, -, hc, -⟩ := h.following
  obtain ⟨d, hd, hall⟩ := hs.following hc
  obtain rfl : d = c' := Option.some.inj (hd.primary.symm.trans hc'.primary)
  refine ⟨c₀, c, d, hc₀, hc.primary, hc'.primary, hfollows, hall.imp fun o o' ho => ?_⟩
  exact ⟨ho.path, ho.body, by
    obtain ⟨-, -, ho⟩ := ho
    generalize o.doc? = e, o'.doc? = e' at ho
    cases ho with
    | none => exact .none
    | some ho => exact .some (ho.imp fun _ _ => And.left)⟩

/-- Whatever the user makes of the comments of fields, the step is taken to its end. -/
theorem exists_step {path source text : Text} {s : Synchronizer} {c d : ClassDecl}
    (h : Following path source s c) (hd : (SourceFile.read path text).primary? = some d)
    (hr : Redescribed c d) (hp : Entry.isPlain text) (hdiffer : d.BodiesDiffer)
    (hs : EntriesSheltered (s.snapshot.changes (Snapshot.ofClass d)) text) :
    ∃ s' source', Step path s source s' source' := by
  have hplain : ∀ e ∈ s.snapshot.entries, Entry.isPlain e.2 := fun e he =>
    (h.isName (h.snapshot ▸ OrderedMap.get?_of_mem he)).2
  have hobserve := observe_eq_updates hd (hr.name ▸ h.tracked)
    (h.snapshot ▸ ⟨path, source, c, h.primary, rfl⟩) hplain hp hdiffer hs
  obtain ⟨d', hd', -, -, hreword, hn⟩ := observe_spec hobserve
  obtain rfl : d' = d := Option.some.inj (hd'.symm.trans hd)
  obtain ⟨-, ps, -, -, happly, -⟩ := exists_primary?_reworded hd hreword hn
  exact ⟨_, _, .intro h.primary hd hr hp hdiffer hs hobserve happly⟩

theorem step_converges_described : ∃ (s s' : Synchronizer) (source' : Text),
    Run [] (described ['x']) s (described ['x']) ∧ Step [] s (described ['x']) s' source' ∧
    ∃ c₀ c c', (SourceFile.read [] (described ['x'])).primary? = some c₀ ∧
      (SourceFile.read [] (described ['x'])).primary? = some c ∧
      (SourceFile.read [] source').primary? = some c' ∧
      List.Forall₂ (fun o o' => o.Beside (fun l l' => o.body?.isSome →
        Snapshot.Follows (Snapshot.ofClass c₀) (Snapshot.ofClass c') o.path l l') o')
          c₀.owners c'.owners ∧
      List.Forall₂ (fun o o' => o.Beside
        (Snapshot.Keeps (Snapshot.ofClass c) (Snapshot.ofClass c') o.path) o')
          c.owners c'.owners := by
  obtain ⟨c, hc⟩ := Option.isSome_iff_exists.1
    (show (SourceFile.read [] (described ['x'])).primary?.isSome by decide +kernel)
  obtain ⟨d, hd⟩ := Option.isSome_iff_exists.1
    (show (SourceFile.read [] (described ['y'])).primary?.isSome by decide +kernel)
  have hevaluated : ∀ c ∈ (SourceFile.read [] (described ['x'])).primary?,
      ∀ d ∈ (SourceFile.read [] (described ['y'])).primary?, (d.own.name = c.own.name ∧
        (Snapshot.fieldsOf d).map Prod.fst = (Snapshot.fieldsOf c).map Prod.fst ∧
        d.owners = c.owners) ∧ d.BodiesDiffer ∧
        (Tree.ownStretches (described ['y'])).all fun s => Entry.shelters (FieldChange.ofType
          ((Snapshot.ofClass c).changes (Snapshot.ofClass d)) s.path) (Entry.charsOf s.lexemes) := by
    decide +kernel
  obtain ⟨⟨hname, hfields, howners⟩, hdiffer, hall⟩ := hevaluated c hc d hd
  have hplain : Entry.isPlain (described ['x']) ∧ Entry.isPlain (described ['y']) := by
    decide +kernel
  have hobserve : (Synchronizer.observe {} (SourceFile.read [] (described ['x']))) =
      (.ok [], ⟨some ⟨[], c.own.name⟩, Snapshot.ofClass c⟩) := by
    rw [observe, hc]
    rfl
  have hrun := Run.baseline hplain.1 hobserve
  obtain ⟨-, c', -, hfollowing, -⟩ := hrun.following
  obtain rfl : c' = c := Option.some.inj (hfollowing.primary.symm.trans hc)
  have hsound := Snapshot.sound_of_mem_changes hd hplain.2 ⟨[], _, c', hc, rfl⟩
    fun e he => (hfollowing.isName (OrderedMap.get?_of_mem he)).2
  obtain ⟨s', source', hstep⟩ := exists_step hfollowing hd ⟨hname, hfields, howners⟩ hplain.2
    hdiffer (entriesSheltered_of_shelters hsound hall)
  exact ⟨_, s', source', hrun, hstep, hrun.step_converges hstep⟩

end Synchronizer
end Javadoc
