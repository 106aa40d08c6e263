import Javadoc.Java.Member

/-! Which return statement gives the expression of a method. The search leaves out lambda
expressions, classes and records, but not the members of interfaces and enumerations that are
declared in the body: a return statement of theirs counts when it comes first. -/
namespace Javadoc.Java.Outline

mutual

/-- The return statements that a part executes itself, each by its expression: those in no lambda
expression and in no type declared in it. -/
def ownReturns : Outline → List (Option Text)
  | returns value? => [value?]
  | part parts => ownAmong parts
  | lambda _ | type _ _ => []

def ownAmong : List Outline → List (Option Text)
  | [] => []
  | o :: os => o.ownReturns ++ ownAmong os

end

/-- A return statement that the search meets: whether the body executes it itself, and its
expression. -/
structure Met where
  own : Bool
  value? : Option Text

def entered : ClassKind → Bool
  | .class | .record => false
  | .interface | .enum | .annotationType => true

def endsRow : Outline → Bool
  | returns none => true
  | _ => false

mutual

/-- The return statements in a part that the search meets, when `own` tells whether the body
executes the part itself. One without an expression hides the rest of its row. -/
def met (own : Bool) : Outline → List Met
  | returns value? => [⟨own, value?⟩]
  | part parts => metAmong own parts
  | lambda _ => []
  | type kind parts => if entered kind then metAmong false parts else []

def metAmong (own : Bool) : List Outline → List Met
  | [] => []
  | o :: os => o.met own ++ if o.endsRow then [] else metAmong own os

end

section Search

private theorem firstReturned?_type (kind : ClassKind) (parts : List Outline) :
    (type kind parts).firstReturned? = if entered kind then firstAmong? parts else none := by
  cases kind <;> rfl

private theorem firstAmong?_cons (o : Outline) (os : List Outline) : firstAmong? (o :: os) =
    o.firstReturned?.or (if o.endsRow then none else firstAmong? os) := by
  cases o with
  | returns value? => cases value? <;> rfl
  | _ =>
    rw [firstAmong?]
    · split <;> simp [endsRow, *]
    · simp

mutual

/-- The search gives the first expression of a return statement that it meets. -/
theorem firstReturned?_eq_findSome? (own : Bool) :
    (o : Outline) → o.firstReturned? = (o.met own).findSome? Met.value?
  | returns none | returns (some _) => rfl
  | part parts => firstAmong?_eq_findSome? own parts
  | lambda _ => rfl
  | type kind parts => by
    rw [firstReturned?_type, met, apply_ite (List.findSome? Met.value?),
      ← firstAmong?_eq_findSome? false parts, List.findSome?_nil]

private theorem firstAmong?_eq_findSome? (own : Bool) :
    (os : List Outline) → firstAmong? os = (metAmong own os).findSome? Met.value?
  | [] => rfl
  | o :: os => by
    rw [firstAmong?_cons, metAmong, List.findSome?_append, ← firstReturned?_eq_findSome? own o,
      apply_ite (List.findSome? Met.value?), ← firstAmong?_eq_findSome? own os, List.findSome?_nil]

end

variable {ms : List Met}

/-- A return statement of the body itself that has an expression gives it unless one that is not of
the body, and has an expression as well, is met before. -/
theorem findSome?_own (hown : ∀ r ∈ ms, r.own → r.value?.isSome)
    (hinner : ∀ r ∈ ms.takeWhile fun r => !r.own, r.value? = none) :
    ms.findSome? Met.value? = ((ms.filter Met.own).map Met.value?).head?.join := by
  induction ms with
  | nil => rfl
  | cons r ms ih =>
    obtain ⟨hr, hown⟩ := List.forall_mem_cons.1 hown
    cases hrown : r.own with
    | true =>
      obtain ⟨value, hvalue⟩ := Option.isSome_iff_exists.1 (hr hrown)
      simp [hrown, hvalue]
    | false =>
      rw [List.takeWhile_cons, hrown, Bool.not_false, if_pos rfl] at hinner
      obtain ⟨hvalue, hinner⟩ := List.forall_mem_cons.1 hinner
      simp [hrown, hvalue, ih hown hinner]

/-- One that is met before those of the body itself and has an expression gives it. -/
theorem findSome?_inner {r : Met}
    (hr : (ms.takeWhile fun r => !r.own).find? (·.value?.isSome) = some r) :
    ms.findSome? Met.value? = r.value? := by
  obtain ⟨hvalue, before, after, hsplit, hbefore⟩ := List.find?_eq_some_iff_append.1 hr
  obtain ⟨value, hvalue⟩ := Option.isSome_iff_exists.1 hvalue
  have hnone : before.findSome? Met.value? = none :=
    List.findSome?_eq_none_iff.2 fun r hr => by simpa using hbefore r hr
  have hms := List.takeWhile_append_dropWhile (p := fun r : Met => !r.own) (l := ms)
  rw [← hms, hsplit, List.append_assoc, List.findSome?_append, hnone, Option.none_or,
    List.cons_append, List.findSome?_cons, hvalue]

end Search

section Own

mutual

/-- Inside a type that is declared in the body no return statement is one of the body. -/
theorem own_of_mem_met {r : Met} : (o : Outline) → r ∈ o.met false → r.own = false
  | returns value?, hr => by
    rw [List.mem_singleton.1 hr]
  | part parts, hr => own_of_mem_metAmong parts hr
  | type kind parts, hr => by
    rw [met] at hr
    split at hr
    · exact own_of_mem_metAmong parts hr
    · cases hr

private theorem own_of_mem_metAmong {r : Met} :
    (os : List Outline) → r ∈ metAmong false os → r.own = false
  | o :: os, hr => by
    rcases List.mem_append.1 hr with hr | hr
    · exact own_of_mem_met o hr
    · split at hr
      · cases hr
      · exact own_of_mem_metAmong os hr

end

private theorem filter_own_metAmong_false (os : List Outline) :
    (metAmong false os).filter Met.own = [] :=
  List.filter_eq_nil_iff.2 fun r hr => by simp [own_of_mem_metAmong os hr]

private theorem endsRow_of_ownReturns {o : Outline} (ho : ∀ value? ∈ o.ownReturns, value?.isSome) :
    o.endsRow = false := by
  cases o with
  | returns value? =>
    obtain ⟨value, rfl⟩ := Option.isSome_iff_exists.1 (ho value? (List.mem_singleton_self _))
    rfl
  | _ => rfl

mutual

/-- If all the return statements of a body itself have an expression, the search meets them all. -/
theorem filter_own_met : (o : Outline) → (∀ value? ∈ o.ownReturns, value?.isSome) →
    ((o.met true).filter Met.own).map Met.value? = o.ownReturns
  | returns _, _ | lambda _, _ => rfl
  | part parts, hvalues => filter_own_metAmong parts hvalues
  | type kind parts, _ => by
    rw [met]
    split
    · rw [filter_own_metAmong_false, ownReturns, List.map_nil]
    · rfl

private theorem filter_own_metAmong :
    (os : List Outline) → (∀ value? ∈ ownAmong os, value?.isSome) →
    ((metAmong true os).filter Met.own).map Met.value? = ownAmong os
  | [], _ => rfl
  | o :: os, hvalues => by
    obtain ⟨ho, hos⟩ := List.forall_mem_append.1 hvalues
    rw [metAmong, ownAmong, endsRow_of_ownReturns ho, if_neg Bool.false_ne_true,
      List.filter_append, List.map_append, filter_own_met o ho, filter_own_metAmong os hos]

end

end Own

mutual

/-- All the return statements in a part, each by its expression. -/
def allReturns : Outline → List (Option Text)
  | returns value? => [value?]
  | part parts | lambda parts | type _ parts => allAmong parts

def allAmong : List Outline → List (Option Text)
  | [] => []
  | o :: os => o.allReturns ++ allAmong os

end

/-- The expressions behind the return keywords of a row of tokens and its groups, in the order of
the source. What stands inside a return statement is left out; with `hidden` the row starts in one. -/
def returnsIn (hidden : Bool) : Forest → List (Option Text)
  | .nil => []
  | .leaf t rest =>
    if t.is "return" && !hidden then returnedValue? rest :: returnsIn true rest
    else returnsIn (hidden && !t.is ";") rest
  | .group _ inner _ rest =>
    if hidden then returnsIn true rest else returnsIn false inner ++ returnsIn false rest

section Order

mutual

theorem met_sublist (own : Bool) : (o : Outline) → ((o.met own).map Met.value?).Sublist o.allReturns
  | returns _ => List.Sublist.refl _
  | part parts => metAmong_sublist own parts
  | lambda _ => List.nil_sublist _
  | type kind parts => by
    rw [met]
    split
    · exact metAmong_sublist false parts
    · exact List.nil_sublist _

private theorem metAmong_sublist (own : Bool) :
    (os : List Outline) → ((metAmong own os).map Met.value?).Sublist (allAmong os)
  | [] => List.Sublist.refl _
  | o :: os => by
    rw [metAmong, allAmong, List.map_append]
    refine (met_sublist own o).append ?_
    split
    · exact List.nil_sublist _
    · exact metAmong_sublist own os

end

@[simp] theorem allAmong_nil : allAmong [] = [] := rfl

@[simp] theorem allAmong_cons (o : Outline) (os : List Outline) :
    allAmong (o :: os) = o.allReturns ++ allAmong os := rfl

@[simp] theorem allReturns_returns (value? : Option Text) :
    (returns value?).allReturns = [value?] := rfl

@[simp] theorem allReturns_part (parts : List Outline) :
    (part parts).allReturns = allAmong parts := rfl

@[simp] theorem allReturns_lambda (parts : List Outline) :
    (lambda parts).allReturns = allAmong parts := rfl

@[simp] theorem allReturns_type (kind : ClassKind) (parts : List Outline) :
    (type kind parts).allReturns = allAmong parts := rfl

@[simp] theorem allAmong_append (os os' : List Outline) :
    allAmong (os ++ os') = allAmong os ++ allAmong os' := by
  induction os with
  | nil => rfl
  | cons o os ih => simp [ih]

namespace Item

@[simp] theorem all_nil : all [] = [] := rfl

@[simp] theorem all_cons (i : Item) (is : List Item) : all (i :: is) = i.outlines ++ all is := rfl

@[simp] theorem all_append (is js : List Item) : all (is ++ js) = all is ++ all js :=
  List.flatMap_append

@[simp] theorem allAmong_groups (is : List Item) : allAmong (groups is) = allAmong (all is) := by
  simp only [groups, allAmong_append]
  induction is with
  | nil => rfl
  | cons i is ih =>
    rw [splitGroups, all_cons, allAmong_append, ← ih]
    dsimp only
    split <;> simp

private theorem allAmong_first (is : List Item) :
    allAmong (first is).outlines ++ allAmong (all is.tail) = allAmong (all is) := by
  cases is <;> simp [first]

end Item

/-- Joining loses no return statement and keeps their order. -/
theorem allAmong_join (j : Joint) (head : List Outline) (is : List Item) :
    allAmong (Item.all (j.join head is)) = allAmong head ++ allAmong (Item.all is) := by
  have hsplit (n : Nat) : allAmong (Item.all (is.tail.take n)) ++
      allAmong (Item.all (is.tail.drop n)) = allAmong (Item.all is.tail) := by
    rw [← allAmong_append, ← Item.all_append, List.take_append_drop]
  have hfirst : allAmong (Item.all is) = allAmong (Item.first is).outlines ++
      (allAmong (Item.all (is.tail.take (j.absorbed is.tail))) ++
        allAmong (Item.all (is.tail.drop (j.absorbed is.tail)))) := by
    rw [hsplit, Item.allAmong_first]
  cases j with
  | apart | label => simp [Joint.join]
  | _ => simp [Joint.join, hfirst, -List.drop_tail]

structure Step.Quiet (step : Step) : Prop where
  head : allAmong step.head = []
  next : step.next.hides = false

private theorem Step.Quiet.ite {c : Prop} [Decidable c] {a b : Step} (ha : a.Quiet) (hb : b.Quiet) :
    (if c then a else b).Quiet := by
  split
  · exact ha
  · exact hb

structure Entry.Open (entry : Entry) : Prop where
  shell : entry.shell ≠ .none
  inside : entry.inside.hides = false
  next : entry.next.hides = false

private theorem allAmong_wrap {shell : Shell} (hshell : shell ≠ .none) (is : List Item) :
    allAmong (shell.wrap is) = allAmong (Item.all is) := by
  cases shell with
  | none => cases hshell rfl
  | part | lambda | type kind => simp [Shell.wrap]

namespace Stage

private theorem hides_stage (place : Place) : place.stage.hides = false := by
  cases place <;> rfl

private theorem quiet_skip {next : Stage} (h : next.hides = false) : (skip next).Quiet := ⟨rfl, h⟩

private theorem quiet_stepStatement (o : Opening) (t : Token) (rest : Forest) :
    (stepStatement o t rest).Quiet := by
  rw [stepStatement]
  cases declares? t rest with
  | some kind => exact quiet_skip rfl
  | none =>
    refine .ite ⟨rfl, rfl⟩ (.ite (quiet_skip rfl) (.ite (quiet_skip rfl) (.ite ⟨rfl, rfl⟩ ?_)))
    cases if startsWith "(" rest then guarded? t else none with
    | some j => exact quiet_skip rfl
    | none =>
      cases leading? t rest with
      | some j => exact ⟨rfl, rfl⟩
      | none => exact ⟨rfl, rfl⟩

private theorem quiet_stepLabel (conditionals : Nat) (t : Token) (rest : Forest) :
    (stepLabel conditionals t rest).Quiet := by
  refine .ite (quiet_skip rfl) (.ite (quiet_skip ?_) (.ite (quiet_skip rfl) (quiet_skip rfl)))
  split <;> rfl

private theorem quiet_stepMember (behindDot : Bool) (t : Token) (rest : Forest) :
    (stepMember behindDot t rest).Quiet := by
  rw [stepMember]
  cases if behindDot then none else declares? t rest with
  | some kind => exact quiet_skip rfl
  | none => exact .ite ⟨rfl, rfl⟩ (quiet_skip rfl)

private theorem quiet_stepExpression (place : Place) (t : Token) (rest : Forest) :
    (stepExpression place t rest).Quiet :=
  .ite ⟨rfl, hides_stage place⟩ (.ite ⟨rfl, rfl⟩ (quiet_skip rfl))

/-- Outside of a return statement no token but its keyword gives or starts one. -/
theorem quiet_stepOn {s : Stage} (hs : s.hides = false) (t : Token) (rest : Forest) :
    (s.stepOn t rest).Quiet := by
  cases s with
  | statement o => exact quiet_stepStatement o t rest
  | annotationName => exact quiet_skip rfl
  | label conditionals => exact quiet_stepLabel conditionals t rest
  | returned => cases hs
  | member behindDot => exact quiet_stepMember behindDot t rest
  | constant =>
    refine quiet_skip ?_
    split <;> rfl
  | type place kind => exact quiet_skip rfl
  | expression place b => exact quiet_stepExpression place t rest

/-- A return statement ends with its semicolon. -/
theorem stepOn_returned (t : Token) (rest : Forest) : (returned.stepOn t rest).head = [] ∧
    (returned.stepOn t rest).next.hides = !t.is ";" := by
  rw [stepOn]
  cases t.is ";" <;> exact ⟨rfl, rfl⟩

private theorem enter_returned (opening : Token) :
    returned.enter opening = ⟨.none, returned, .within, returned⟩ := by
  rw [enter]
  split <;> rfl

private theorem enterBraces_open {s : Stage} (hs : s.hides = false) : s.enterBraces.Open := by
  cases s with
  | returned => cases hs
  | statement o | annotationName | label conditionals | member behindDot | constant =>
    exact ⟨by simp [enterBraces], rfl, rfl⟩
  | type place kind =>
    exact ⟨by simp [enterBraces], by cases kind <;> rfl, hides_stage place⟩
  | expression place b => cases b <;> exact ⟨by simp [enterBraces], rfl, rfl⟩

private theorem enterOther_open {s : Stage} (hs : s.hides = false) (isParentheses : Bool) :
    (s.enterOther isParentheses).Open := by
  cases s with
  | returned => cases hs
  | statement o => cases o <;> exact ⟨by simp [enterOther], rfl, rfl⟩
  | annotationName | label conditionals | member behindDot | constant | type place kind
    | expression place b => exact ⟨by simp [enterOther], rfl, rfl⟩

private theorem enter_open {s : Stage} (hs : s.hides = false) (opening : Token) :
    (s.enter opening).Open := by
  rw [enter]
  split
  · exact enterBraces_open hs
  · exact enterOther_open hs _

end Stage

/-- Everything that is read of a row of tokens has its return statements written there, and all of
those written there are read. -/
theorem allAmong_items (s : Stage) (f : Forest) :
    allAmong (Item.all (items s f)) = returnsIn s.hides f := by
  induction f generalizing s with
  | nil => rfl
  | leaf t rest ih =>
    rw [items, allAmong_join, ih, returnsIn, Stage.step]
    cases hs : s.hides with
    | true =>
      obtain rfl : s = .returned := by simpa [Stage.hides] using hs
      obtain ⟨hhead, hnext⟩ := Stage.stepOn_returned t rest
      simp [hhead, hnext]
    | false =>
      obtain ⟨hhead, hnext⟩ := Stage.quiet_stepOn hs t rest
      cases ht : t.is "return" with
      | true => simp [Stage.hides]
      | false => simp [hhead, hnext]
  | group o inner c rest ihi ih =>
    rw [items, allAmong_join, ih, returnsIn]
    cases hs : s.hides with
    | true =>
      obtain rfl : s = .returned := by simpa [Stage.hides] using hs
      rw [Stage.enter_returned, if_pos rfl]
      rfl
    | false =>
      obtain ⟨hshell, hinside, hnext⟩ := Stage.enter_open hs o
      rw [allAmong_wrap hshell, ihi, hinside, hnext, if_neg Bool.false_ne_true]

theorem allReturns_ofBody (inside : Forest) :
    (ofBody inside).allReturns = returnsIn false inside := by
  rw [ofBody, allReturns_part, Item.allAmong_groups, allAmong_items]
  rfl

end Order

section Method
variable (head : List Piece) (isConstructor : Bool) (name : Text) (parameters : Forest)
  (returnType? : Option Text) (opening closing : Token)

/-- A method all of whose own return statements have an expression returns that of the first of them
unless the search meets one before that is not its own and has an expression: then it returns that
of the first such one. Those that are met stand in the body in this order, and all of the method
itself are among them. The outline that is searched has all return statements of the body. -/
theorem returned?_own (inside : Forest)
    (hown : ∀ value? ∈ (ofBody inside).ownReturns, value?.isSome) :
    let method := Member.methodOf head isConstructor name parameters returnType?
      (some (.group opening inside closing))
    let ms := (ofBody inside).met true
    ((∀ r ∈ ms.takeWhile fun r => !r.own, r.value? = none) →
        method.returned? = (ofBody inside).ownReturns.head?.join) ∧
      (∀ r, (ms.takeWhile fun r => !r.own).find? (·.value?.isSome) = some r →
        method.returned? = r.value?) ∧
      (ms.filter Met.own).map Met.value? = (ofBody inside).ownReturns ∧
      (ms.map Met.value?).Sublist (returnsIn false inside) ∧
      (ofBody inside).allReturns = returnsIn false inside := by
  intro method ms
  have hreturned : method.returned? = ms.findSome? Met.value? :=
    firstReturned?_eq_findSome? true (ofBody inside)
  have hfilter : (ms.filter Met.own).map Met.value? = (ofBody inside).ownReturns :=
    filter_own_met (ofBody inside) hown
  have hvalues : ∀ r ∈ ms, r.own → r.value?.isSome := by
    intro r hr hrown
    refine hown r.value? ?_
    rw [← hfilter]
    exact List.mem_map_of_mem (List.mem_filter.2 ⟨hr, hrown⟩)
  have hall : (ofBody inside).allReturns = returnsIn false inside := allReturns_ofBody inside
  refine ⟨fun hinner => ?_, fun r hr => ?_, hfilter, ?_, hall⟩
  · rw [hreturned, findSome?_own hvalues hinner, hfilter]
  · rw [hreturned, findSome?_inner hr]
  · rw [← hall]
    exact met_sublist true (ofBody inside)

def methodWith (inside : String) : Method :=
  let brace (text : Text) : Token :=
    { origin := 0, lead := [], lexeme := { kind := .symbol, text } }
  Member.methodOf [] false "f".toList .nil (some "int".toList)
    (some (.group (brace ['\x7b']) (Forest.scan inside.toList) (brace ['\x7d'])))

theorem returned?_own_sum :
    let inside :=
      "f = () -> \x7b return 1; \x7d; class B \x7b int g() \x7b return 2; \x7d \x7d return a + b;"
    (∀ value? ∈ (ofBody (Forest.scan inside.toList)).ownReturns, value?.isSome) ∧
      (methodWith inside).returned? = some "a+b".toList := by
  intro inside
  have hreturns : (ofBody (Forest.scan inside.toList)).ownReturns = [some "a+b".toList] := by
    decide +kernel
  have hown : ∀ value? ∈ (ofBody (Forest.scan inside.toList)).ownReturns, value?.isSome := by
    simp [hreturns]
  have hinner : ∀ r ∈ ((ofBody (Forest.scan inside.toList)).met true).takeWhile fun r => !r.own,
      r.value? = none := by
    decide +kernel
  refine ⟨hown, ((returned?_own _ _ _ _ _ _ _ (Forest.scan inside.toList) hown).1 hinner).trans ?_⟩
  rw [hreturns]
  rfl

/-- The search enters an enumeration that is declared in the body. -/
example : (methodWith "enum E \x7b X; int g() \x7b return 1; \x7d \x7d return 2;").returned? =
    some "1".toList := by
  decide +kernel

end Method
end Javadoc.Java.Outline
