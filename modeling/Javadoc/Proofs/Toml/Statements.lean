import Javadoc.Proofs.Toml.Quoted
import Javadoc.Toml.Statement

/-! Lines that read as given statements whatever follows them, so that pieces of a configuration
text can be written one after the other. -/
namespace Javadoc.Toml

def Reads (t : Text) (ss : List Statement) : Prop :=
  ∀ rest, readStatements (t ++ rest) = (readStatements rest).map (ss ++ ·)

@[simp] theorem readStatements_nil : readStatements [] = some [] := by
  rw [readStatements]
  rfl

namespace Reads

variable {t u : Text} {ss rs : List Statement}

theorem nil : Reads [] [] := fun rest => by simp

theorem append (ht : Reads t ss) (hu : Reads u rs) : Reads (t ++ u) (ss ++ rs) := fun rest => by
  rw [List.append_assoc, ht, hu, Option.map_map]
  congr 1
  funext x
  simp

private theorem readStatements_eq (h : Reads t ss) : readStatements t = some ss := by
  simpa using h []

/-- Nothing reads as no statements. -/
theorem eq_nil (h : Reads [] ss) : ss = [] := by
  simpa using h.readStatements_eq.symm

end Reads

/-- A whole line is read on its own. -/
theorem reads_of_readLine {t : Text} (s? : Option Statement)
    (h : ∀ rest, readLine (t ++ '\n' :: rest) = some (s?, rest)) :
    Reads (t ++ ['\n']) s?.toList := fun rest => by
  rw [List.append_assoc, List.singleton_append, readStatements, h]
  have hlength : rest.length < (t ++ '\n' :: rest).length := by
    rw [List.length_append, List.length_cons]
    omega
  simp only [hlength, if_true]
  simp

theorem reads_break : Reads ['\n'] [] :=
  reads_of_readLine (t := []) none fun rest => by
    simp [readLine, afterLine?, skipGaps, Text.isGap, skipComment, afterBreak?]

/-! ## Keys -/

def isBare (name : Text) : Bool := !name.isEmpty && name.all isKeyChar

private theorem isGap_of_isKeyChar {c : Char} (h : isKeyChar c) : Text.isGap c = false := by
  cases hg : Text.isGap c with
  | false => rfl
  | true =>
    obtain rfl | rfl : c = ' ' ∨ c = '\t' := by simpa [Text.isGap] using hg
    all_goals exact absurd h (by decide)

section Bare

variable {name rest : Text} {d : Char}

private theorem exists_of_isBare (h : isBare name) :
    ∃ c cs, name = c :: cs ∧ isKeyChar c ∧ ∀ d ∈ cs, isKeyChar d := by
  cases name with
  | nil => simp [isBare] at h
  | cons c cs => exact ⟨c, cs, rfl, by simpa [isBare] using h⟩

private theorem readName_bare (h : isBare name) (hd : isKeyChar d = false) :
    readName (name ++ d :: rest) = some (name, d :: rest) := by
  obtain ⟨c, cs, rfl, hc, hcs⟩ := exists_of_isBare h
  have hall : ∀ d ∈ c :: cs, isKeyChar d = true := by simpa [hc] using hcs
  have htake : (c :: cs ++ d :: rest).takeWhile isKeyChar = c :: cs := by
    rw [List.takeWhile_append_of_pos hall]
    simp [hd]
  have hdrop : (c :: cs ++ d :: rest).dropWhile isKeyChar = d :: rest := by
    rw [List.dropWhile_append_of_pos hall]
    simp [hd]
  have hdouble : c ≠ '"' := by rintro rfl; exact absurd hc (by decide)
  have hsingle : c ≠ '\'' := by rintro rfl; exact absurd hc (by decide)
  rw [List.cons_append] at *
  unfold readName
  split
  · simp_all
  · simp_all
  · simp [htake, hdrop]

/-- A bare name that no point follows is a key of its own. -/
theorem readKey_bare (h : isBare name) (rest : Text) (hd : isKeyChar d = false)
    (hpoint : (skipGaps (d :: rest)).head? ≠ some '.') :
    readKey (name ++ d :: rest) = some (⟨[], name⟩, skipGaps (d :: rest)) := by
  have hskip : skipGaps (name ++ d :: rest) = name ++ d :: rest := by
    obtain ⟨c, cs, rfl, hc, -⟩ := exists_of_isBare h
    simp [skipGaps, isGap_of_isKeyChar hc]
  have hnames : readNames (name ++ d :: rest) = some ([name], skipGaps (d :: rest)) := by
    rw [readNames, hskip, readName_bare h hd]
    simp only
    split
    · simp_all
    · rfl
  simp [readKey, hnames, depthLimit]

end Bare

/-! ## Values -/

structure Gives (t : Text) (v : Node) : Prop where
  ungapped : ∀ c ∈ t.head?, Text.isGap c = false
  read : ∀ rest, readValue (depthLimit - 1) (t ++ '\n' :: rest) = some (v, '\n' :: rest)

private theorem readValue_of_head {c : Char}
    (ha : c ≠ '[') (ht : c ≠ '\x7b') (depth : Nat) (t : Text) :
    readValue depth (c :: t) = readScalar (c :: t) := by
  unfold readValue
  split <;> simp_all

private theorem exists_quote (t : Text) : ∃ q u, quote t = q :: u ∧ (q = '"' ∨ q = '\'') := by
  unfold quote openLong
  split
  · exact ⟨_, _, rfl, .inl rfl⟩
  · exact ⟨_, _, rfl, .inr rfl⟩
  · split <;> exact ⟨_, _, rfl, .inl rfl⟩
  · split <;> exact ⟨_, _, rfl, .inr rfl⟩

theorem gives_quote (t : Text) : Gives (quote t) (.string t) := by
  obtain ⟨q, u, hu, hq⟩ := exists_quote t
  refine ⟨?_, fun rest => ?_⟩
  · obtain rfl | rfl := hq <;> simp [hu, Text.isGap]
  · have hread : unquote? (quote t ++ '\n' :: rest) = some (t, '\n' :: rest) :=
      unquote?_quote (by simp) (by simp) t
    rw [hu, List.cons_append] at hread ⊢
    rw [readValue_of_head (by obtain rfl | rfl := hq <;> decide)
      (by obtain rfl | rfl := hq <;> decide), readScalar, hread]

theorem gives_boolean (b : Bool) :
    Gives (if b then "true".toList else "false".toList) (.boolean b) := by
  cases b <;>
    refine ⟨by simp [Text.isGap], fun rest => ?_⟩ <;>
    simp [readValue_of_head, readScalar, unquote?, Scalar.isInside, Text.isGap]

theorem gives_empty : Gives ['[', ']'] (.array []) := by
  refine ⟨by simp [Text.isGap], fun rest => ?_⟩
  have hvoid : skipVoid (']' :: '\n' :: rest) = ']' :: '\n' :: rest := by
    simp [skipVoid, skipLines, skipBreaks, Text.isGap]
  have hitems (value) : readItems value (']' :: '\n' :: rest) = some ([], '\n' :: rest) := by
    rw [readItems]
  simp [depthLimit, readValue, hvoid, hitems]

/-! ## Lines -/

def isOpening (c : Char) : Bool := !(Text.isGap c || "#\n\r".toList.contains c)

private theorem afterLine?_eq_none {c : Char} (hc : isOpening c) (t : Text) :
    afterLine? (c :: t) = none := by
  obtain ⟨hgap, hcomment, hbreak, hreturn⟩ :
      Text.isGap c = false ∧ c ≠ '#' ∧ c ≠ '\n' ∧ c ≠ '\r' := by
    simpa [isOpening] using hc
  simp [afterLine?, skipGaps, hgap, skipComment, hcomment, afterBreak?, hbreak, hreturn]

private theorem reads_of_readStatement {c : Char} {t : Text} {s : Statement} (hc : isOpening c)
    (h : ∀ rest, readStatement (c :: t ++ '\n' :: rest) = some (s, '\n' :: rest)) :
    Reads (c :: t ++ ['\n']) [s] := by
  have hgap : Text.isGap c = false := by
    cases hg : Text.isGap c with
    | false => rfl
    | true => simp [isOpening, hg] at hc
  refine reads_of_readLine (some s) fun rest => ?_
  have hskip : skipGaps (c :: t ++ '\n' :: rest) = c :: t ++ '\n' :: rest := by
    simp [skipGaps, hgap]
  have hend : afterLine? ('\n' :: rest) = some rest := by
    simp [afterLine?, skipGaps, Text.isGap, skipComment, afterBreak?]
  rw [readLine, List.cons_append, afterLine?_eq_none hc, ← List.cons_append, hskip, h]
  simp [hend]

private theorem isOpening_of_isKeyChar {c : Char} (h : isKeyChar c) : isOpening c := by
  have hne : ∀ d, isKeyChar d = false → c ≠ d := by rintro d hd rfl; simp [hd] at h
  simp [isOpening, isGap_of_isKeyChar h, hne '#' (by decide), hne '\n' (by decide),
    hne '\r' (by decide)]

private theorem readStatement_of_head {c : Char} (hc : c ≠ '[') (t : Text) :
    readStatement (c :: t) =
      (readPair (readValue (depthLimit - 1)) (c :: t)).map
        fun ((key, v), rest) => (.pair key v, rest) := by
  unfold readStatement
  split <;> simp_all

private theorem readPair_setting {name value : Text} {v : Node} (hname : isBare name)
    (hv : Gives value v) (rest : Text) :
    readPair (readValue (depthLimit - 1)) (name ++ ' ' :: '=' :: ' ' :: (value ++ '\n' :: rest)) =
      some ((⟨[], name⟩, v), '\n' :: rest) := by
  have hkey := readKey_bare (d := ' ') hname ('=' :: ' ' :: (value ++ '\n' :: rest))
    (by decide) (by simp [skipGaps, Text.isGap])
  have hequals : skipGaps (' ' :: '=' :: ' ' :: (value ++ '\n' :: rest)) =
      '=' :: ' ' :: (value ++ '\n' :: rest) := by
    simp [skipGaps, Text.isGap]
  have hvalue : skipGaps (' ' :: (value ++ '\n' :: rest)) = value ++ '\n' :: rest := by
    have := hv.ungapped
    cases value <;> simp_all [skipGaps, Text.isGap]
  simp [readPair, hkey, hequals, hvalue, hv.read]

/-- A line that gives a name a value. -/
theorem reads_setting {name value : Text} {v : Node} (hname : isBare name) (hv : Gives value v) :
    Reads (name ++ " = ".toList ++ value ++ ['\n']) [.pair ⟨[], name⟩ v] := by
  have hpair := readPair_setting hname hv
  obtain ⟨c, cs, rfl, hc, -⟩ := exists_of_isBare hname
  refine reads_of_readStatement (isOpening_of_isKeyChar hc) fun rest => ?_
  have hbracket : c ≠ '[' := by rintro rfl; exact absurd hc (by decide)
  have hpair := hpair rest
  rw [List.cons_append] at hpair
  simp [readStatement_of_head hbracket, hpair]

/-- A line that opens a table. -/
theorem reads_header {name : Text} (hname : isBare name) :
    Reads ('[' :: name ++ [']', '\n']) [.table ⟨[], name⟩] := by
  have hkey (rest : Text) := readKey_bare (d := ']') hname ('\n' :: rest) (by decide)
    (by simp [skipGaps, Text.isGap])
  obtain ⟨c, cs, rfl, hc, -⟩ := exists_of_isBare hname
  have hbracket : c ≠ '[' := by rintro rfl; exact absurd hc (by decide)
  have hread := reads_of_readStatement (c := '[') (t := c :: cs ++ [']']) (s := .table ⟨[], c :: cs⟩)
    (by decide) fun rest => by
      simp_all [readStatement, skipGaps, Text.isGap]
  simpa using hread

/-- A line that opens one table of several. -/
theorem reads_element {name : Text} (hname : isBare name) :
    Reads ('[' :: '[' :: name ++ [']', ']', '\n']) [.element ⟨[], name⟩] := by
  have hkey (rest : Text) := readKey_bare (d := ']') hname (']' :: '\n' :: rest) (by decide)
    (by simp [skipGaps, Text.isGap])
  have hread := reads_of_readStatement (c := '[') (t := '[' :: name ++ [']', ']'])
    (s := .element ⟨[], name⟩) (by decide) fun rest => by
      simp_all [readStatement, skipGaps, Text.isGap]
  simpa using hread

/-- A byte order mark begins no statement. -/
theorem readStatements_mark (t : Text) : readStatements ('\uFEFF' :: t) = none := by
  have hskip : skipGaps ('\uFEFF' :: t) = '\uFEFF' :: t := by simp [skipGaps, Text.isGap]
  have hkey : isKeyChar '\uFEFF' = false := by decide
  have hnames : readNames ('\uFEFF' :: t) = none := by
    rw [readNames, hskip]
    simp [readName, hkey]
  have hline : readLine ('\uFEFF' :: t) = none := by
    rw [readLine, afterLine?_eq_none (by decide), hskip, readStatement_of_head (by decide)]
    simp [readPair, readKey, hnames]
  rw [readStatements, hline]
  rfl

/-- A text that reads as statements stands for the table that they make up. -/
theorem Reads.ofText?_eq {t : Text} {ss : List Statement} (h : Reads t ss) :
    Entries.ofText? t = (ss.foldlM Outline.add {}).map (·.entries) := by
  unfold Entries.ofText?
  split
  · have := h.readStatements_eq
    simp [readStatements_mark] at this
  · simp [h.readStatements_eq]

end Javadoc.Toml
