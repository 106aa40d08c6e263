import Javadoc.Text.Search
import Javadoc.Template.Tag

/-! Type expressions such as `Map<String, List<Integer>>[]`: reading them, and spelling them out
in words, with or without links to the types they name. -/
namespace Javadoc

/-- A type expression: a name, type arguments, and array dimensions. -/
inductive TypeExpr where
  | mk (name : Text) (args : List TypeExpr) (dims : Nat)
  deriving Repr

namespace TypeExpr

def isDelimiter (c : Char) : Bool := c == '<' || c == '>' || c == ',' || c == '['

def eat? (c : Char) (t : Text) : Option Text :=
  match Text.trimStart t with
  | d :: rest => if d = c then some rest else none
  | [] => none

def readName (t : Text) : Text × Text :=
  let rest := Text.trimStart t
  (Text.trim (rest.takeWhile fun c => !isDelimiter c), rest.dropWhile fun c => !isDelimiter c)

theorem length_eat? {c : Char} {t r : Text} (h : eat? c t = some r) : r.length < t.length := by
  unfold eat? at h
  have hs := (List.dropWhile_suffix (l := t) Text.isBlank).length_le
  split at h
  · next d rest hd =>
    split at h
    · cases h
      simp only [Text.trimStart] at hd
      rw [hd] at hs
      simp only [List.length_cons] at hs
      omega
    · cases h
  · cases h

theorem length_readName (t : Text) (h : (readName t).1 ≠ []) :
    (readName t).2.length < t.length := by
  unfold readName at h ⊢
  simp only at h ⊢
  have hs := (List.dropWhile_suffix (l := t) Text.isBlank).length_le
  have ha := congrArg List.length
    (List.takeWhile_append_dropWhile (p := fun c => !isDelimiter c) (l := Text.trimStart t))
  simp only [List.length_append] at ha
  have hpos : 0 < (List.takeWhile (fun c => !isDelimiter c) (Text.trimStart t)).length := by
    cases hw : List.takeWhile (fun c => !isDelimiter c) (Text.trimStart t) with
    | nil => rw [hw] at h; exact absurd rfl h
    | cons c cs => simp
  simp only [Text.trimStart] at ha hpos ⊢
  omega

def readDims (t : Text) : Option (Nat × Text) :=
  match _h : eat? '[' t with
  | none => some (0, t)
  | some inside =>
    match _h' : eat? ']' inside with
    | none => none
    | some rest => (readDims rest).map fun (n, last) => (n + 1, last)
termination_by t.length
decreasing_by
  have h₁ := length_eat? _h
  have h₂ := length_eat? _h'
  omega

mutual

def read (t : Text) : Option (TypeExpr × Text) :=
  let named := readName t
  if _h : named.1 = [] then none
  else
    match _h' : eat? '<' named.2 with
    | none => (readDims named.2).map fun (dims, rest) => (mk named.1 [] dims, rest)
    | some inside =>
      match readArgs inside with
      | none => none
      | some (args, rest) => (readDims rest).map fun (dims, last) => (mk named.1 args dims, last)
termination_by (t.length, 0)
decreasing_by
  have h₁ : named.2.length < t.length := length_readName t _h
  have h₂ := length_eat? _h'
  exact Prod.Lex.left _ _ (by omega)

def readArgs (t : Text) : Option (List TypeExpr × Text) :=
  match read t with
  | none => none
  | some (arg, rest) =>
    match eat? ',' rest with
    | some more =>
      if _h : more.length < t.length then
        (readArgs more).map fun (args, last) => (arg :: args, last)
      else none
    | none => (eat? '>' rest).map fun last => ([arg], last)
termination_by (t.length, 1)

end

/-- Reads a type expression that takes the whole text, blanks aside. -/
def ofText? (t : Text) : Option TypeExpr :=
  match read t with
  | some (e, rest) => if Text.isBlankText rest then some e else none
  | none => none

def primitives : List Text :=
  ["boolean".toList, "byte".toList, "char".toList, "short".toList, "int".toList, "long".toList,
    "float".toList, "double".toList, "void".toList]

def isLinked (name : Text) : Bool := !primitives.contains name && name.head? != some '?'

def writeDims : Nat → Text
  | 0 => []
  | n + 1 => '[' :: ']' :: writeDims n

def link (name : Text) : Text := "\x7b@link ".toList ++ name ++ ['}']

mutual

/-- The type in words, arguments after `of` and with `and` between them. With `linked`, the names
of types become links. -/
def render (linked : Bool) : TypeExpr → Text
  | mk name args dims =>
    let shown := (if linked && isLinked name then link name else name) ++ writeDims dims
    if args.isEmpty then shown
    else shown ++ " of ".toList ++ Text.joinWith " and ".toList (renderEach linked args)

def renderEach (linked : Bool) : List TypeExpr → List Text
  | [] => []
  | e :: es => render linked e :: renderEach linked es

end

end TypeExpr

namespace Template

/-- The return type in words; what is no type expression stands for itself, without blanks around
it. -/
def describeType (linked : Bool) (type : Text) : Text :=
  match TypeExpr.ofText? type with
  | some e => e.render linked
  | none => Text.trim type

def linkedReturnType : Text := TypeExpr.link Tag.returnType.marker

/-- Spells out the return type: linked where the template links it, and plain elsewhere. -/
def enterReturnType (type template : Text) : Text :=
  enter .returnType (describeType false type)
    (Text.replaceAll linkedReturnType (describeType true type) template)

end Template
end Javadoc
