import Javadoc.Declaration.Lookup
import Javadoc.Text.Word

/-! Which field a setter assigns, read off its body, the fields of its type, and its name. -/
namespace Javadoc.Assignment

def after? (c : Char) (t : Text) : Option Text :=
  match Text.trimStart t with
  | d :: rest => if d = c then some rest else none
  | [] => none

/-- A word that is assigned at the front of the text, and the rest after the character behind the
equals sign. A second equals sign there makes it a comparison. -/
def word? (t : Text) : Option (Text × Text) :=
  match t.takeWhile Text.isWord, after? '=' (t.dropWhile Text.isWord) with
  | c :: cs, some (d :: rest) => if d = '=' then none else some (c :: cs, rest)
  | _, _ => none

def thisWord? (t : Text) : Option Text := do
  let rest ← Text.stripPrefix? "this".toList t
  let member ← after? '.' rest
  let (word, _) ← word? (Text.trimStart member)
  some word

/-- The first word assigned through `this`. The keyword has to start a word: `inWord` tells
whether the character before the text belongs to one. -/
def firstThis? (inWord : Bool) : Text → Option Text
  | [] => none
  | c :: cs =>
    match if inWord then none else thisWord? (c :: cs) with
    | some word => some word
    | none => firstThis? (Text.isWord c) cs

private theorem length_after? {c : Char} {t r : Text} (h : after? c t = some r) :
    r.length < t.length := by
  unfold after? at h
  have hs := (List.dropWhile_suffix (l := t) Text.isBlank).length_le
  split at h
  · next d rest hd =>
    split at h
    · cases h
      simp only [Text.trimStart] at hd
      rw [hd] at hs
      simp only [List.length_cons] at hs
      omega
    · cases h
  · cases h

private theorem length_word? {t w r : Text} (h : word? t = some (w, r)) : r.length < t.length := by
  unfold word? at h
  split at h
  · next c cs d rest _ ha =>
    split at h
    · cases h
    · simp only [Option.some.injEq, Prod.mk.injEq] at h
      have h₁ := length_after? ha
      have h₂ := (List.dropWhile_suffix (l := t) Text.isWord).length_le
      simp only [List.length_cons] at h₁
      rw [← h.2]
      omega
  · cases h

/-- The plainly assigned words after the front of the text: those behind a character that neither
belongs to a word nor selects a member. An assignment takes the character behind its equals sign
with it, so that the next one cannot start there. -/
def plainAfter : Text → List Text
  | [] => []
  | c :: cs =>
    if Text.isWord c || c == '.' then plainAfter cs
    else
      match _h : word? cs with
      | some (word, rest) => word :: plainAfter rest
      | none => plainAfter cs
termination_by t => t.length
decreasing_by
  all_goals simp only [List.length_cons]
  · omega
  · have := length_word? _h
    omega
  · omega

def plain (t : Text) : List Text :=
  match word? t with
  | some (word, rest) => word :: plainAfter rest
  | none => plainAfter t

def stem? (name : Text) : Option Text :=
  if Text.eqIgnoreCase (name.take 3) "set".toList then some (name.drop 3) else none

/-- The field that a setter assigns: the first one assigned through `this`; else, of the fields of
its type, the first one plainly assigned that is no parameter; else the one it is named after. -/
def target? (m : Method) (container? : Option ClassInfo) : Option Text :=
  let body := m.body?.getD []
  match firstThis? false body with
  | some word => some word
  | none => do
    let container ← container?
    match ((plain body).filter fun word => !m.takes word).findSome? container.findField? with
    | some field => some field.name
    | none =>
      let stem ← stem? m.name
      let field ← container.findField? stem
      some field.name

end Javadoc.Assignment
