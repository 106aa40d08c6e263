import Javadoc.Java.Outline
import Javadoc.Proofs.Java.Brackets

/-! The outline of a body does not depend on where the body stands in its source. -/
namespace Javadoc.Java

def Token.still (t : Token) : Token := { t with origin := 0 }

namespace Token

@[simp] theorem still_is (t : Token) (s : String) : t.still.is s = t.is s := rfl

@[simp] theorem still_isWord (t : Token) : t.still.isWord = t.isWord := rfl

@[simp] theorem still_text (t : Token) : t.still.text = t.text := rfl

@[simp] theorem still_source (t : Token) : t.still.source = t.source := rfl

theorem keepsLexeme_still : KeepsLexeme still := fun _ => rfl

theorem written_still (ts : List Token) : written (ts.map still) = written ts := by
  cases ts with
  | nil => rfl
  | cons t ts => simp [written, List.flatMap_map]

end Token

namespace Outline

private theorem untilSemicolon_still (f : Forest) :
    untilSemicolon (f.map Token.still) = (untilSemicolon f).map Token.still := by
  induction f with
  | nil => rfl
  | leaf t rest ih =>
    simp only [Forest.map, untilSemicolon, Token.still_is, ih]
    split <;> simp
  | group o inner c rest _ ih => simp [Forest.map, untilSemicolon, ih, Forest.tokens_map]

private theorem returnedValue?_still (f : Forest) :
    returnedValue? (f.map Token.still) = returnedValue? f := by
  simp only [returnedValue?, untilSemicolon_still]
  cases h : untilSemicolon f with
  | nil => rfl
  | cons t ts =>
    have := Token.written_still (t :: ts)
    simp only [List.map_cons] at this
    simp only [List.map_cons, this]

private theorem startsWith_still (s : String) (f : Forest) :
    startsWith s (f.map Token.still) = startsWith s f := by
  cases f <;> rfl

private theorem namesRecord_still (f : Forest) :
    namesRecord (f.map Token.still) = namesRecord f := by
  cases f with
  | nil => rfl
  | leaf name rest => simp only [Forest.map, namesRecord, Token.still_isWord, startsWith_still]
  | group o inner c rest => rfl

private theorem startsType_still (f : Forest) : startsType (f.map Token.still) = startsType f := by
  cases f <;> rfl

private theorem declares?_still (t : Token) (rest : Forest) :
    declares? t.still (rest.map Token.still) = declares? t rest := by
  simp only [declares?, Token.still_is, startsWith_still, namesRecord_still]

private theorem isSkipped_still (t : Token) (rest : Forest) :
    isSkipped t.still (rest.map Token.still) = isSkipped t rest := by
  simp only [isSkipped, isModifier, Token.still_is, startsWith_still, startsType_still]

private theorem leading?_still (t : Token) (rest : Forest) :
    leading? t.still (rest.map Token.still) = leading? t rest := by
  simp only [leading?, Token.still_is, Token.still_isWord, startsWith_still]

namespace Stage

private theorem step_still (s : Stage) (t : Token) (rest : Forest) :
    s.step t.still (rest.map Token.still) = s.step t rest := by
  have hon : s.stepOn t.still (rest.map Token.still) = s.stepOn t rest := by
    cases s with
    | statement o =>
      simp only [stepOn, stepStatement, declares?_still, Token.still_is, isSkipped_still,
        startsWith_still, leading?_still]
      rfl
    | label conditionals => simp only [stepOn, stepLabel, Token.still_is, startsWith_still]
    | member behindDot =>
      simp only [stepOn, stepMember, declares?_still, Token.still_is]
      rfl
    | expression place b =>
      simp only [stepOn, stepExpression, Token.still_is, startsWith_still]
      rfl
    | _ => rfl
  rw [step, step, hon, returnedValue?_still, Token.still_is]

private theorem enter_still (s : Stage) (t : Token) : s.enter t.still = s.enter t := rfl

end Stage

/-- Nothing that is read of a body looks at its place. -/
theorem items_still (s : Stage) (f : Forest) : items s (f.map Token.still) = items s f := by
  induction f generalizing s with
  | nil => rfl
  | leaf t rest ih => simp only [Forest.map, items, Stage.step_still, ih]
  | group o inner c rest ihi ih => simp only [Forest.map, items, Stage.enter_still, ihi, ih]

theorem ofBody_still (inside : Forest) : ofBody (inside.map Token.still) = ofBody inside := by
  rw [ofBody, ofBody, items_still]

end Outline
end Javadoc.Java
