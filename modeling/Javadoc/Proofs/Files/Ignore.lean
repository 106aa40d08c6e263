import Javadoc.Files.Ignore
import Javadoc.Proofs.Text.Trim

/-! Lines of ignore files that are plain names. Such a line is about what has the name at any depth,
or next to the file when a slash stands before it. -/
namespace Javadoc

namespace Glob

def specials : Text := "*?[\\/!#".toList

/-- A character that stands for itself wherever it is in a line of an ignore file. -/
def isPlain (c : Char) : Bool := !(specials.contains c) && !Text.isBlank c

private theorem ne_of_isPlain {c : Char} (h : isPlain c) {d : Char} (hd : d ∈ specials) : c ≠ d := by
  rintro rfl
  simp [isPlain, hd] at h

private theorem isBlank_of_isPlain {c : Char} (h : isPlain c) : Text.isBlank c = false := by
  simpa using (Bool.and_eq_true_iff.1 h).2

private theorem isMatch_literals (name t : Text) : isMatch (name.map literal) t ↔ t = name := by
  induction name generalizing t with
  | nil => exact List.isEmpty_iff
  | cons c name ih =>
    cases t with
    | nil => simp [isMatch, rests]
    | cons d t =>
      by_cases hcd : c = d
      · simp [isMatch, rests, hcd, ih]
      · simp [isMatch, rests, hcd, Ne.symm hcd]

private theorem mem_behindSlashes {u t : Text} : u ∈ behindSlashes t ↔ '/' :: u <:+ t := by
  induction t with
  | nil => simp [behindSlashes]
  | cons c t ih =>
    rw [behindSlashes, List.suffix_cons_iff]
    by_cases hc : c = '/'
    · simp [hc, ih]
    · simp [hc, ih, Ne.symm hc]

private theorem isMatch_leading (name t : Text) :
    isMatch (leading :: name.map literal) t ↔ t = name ∨ '/' :: name <:+ t := by
  simp only [isMatch, rests, List.any_cons, Bool.or_eq_true, isMatch_literals, List.any_eq_true]
  refine or_congr_right ⟨?_, fun h => ⟨name, mem_behindSlashes.2 h, rfl⟩⟩
  rintro ⟨u, hu, rfl⟩
  exact mem_behindSlashes.1 hu

private theorem ofText?_plain {name : Text} (h : ∀ c ∈ name, isPlain c) (read : List Glob)
    (behind : Char) :
    ofText? read (.parts behind) name = some (read.reverse ++ name.map literal) := by
  induction name generalizing read behind with
  | nil => simp [ofText?]
  | cons c name ih =>
    obtain ⟨hc, hname⟩ := List.forall_mem_cons.1 h
    rw [ofText?.eq_def]
    dsimp only
    rw [if_neg (ne_of_isPlain hc (by decide)), if_neg (ne_of_isPlain hc (by decide)),
      if_neg (ne_of_isPlain hc (by decide)), if_neg (ne_of_isPlain hc (by decide)), ih hname]
    simp

end Glob

namespace IgnoreRule

open Glob

private theorem trimEnd_of_not_isBlank {t : Text} (h : ∀ c ∈ t, Text.isBlank c = false) :
    Text.trimEnd t = t := by
  obtain ⟨b, hb, hblank⟩ := Text.dropEndWhile_append Text.isBlank t
  have hnil : b = [] := List.eq_nil_iff_forall_not_mem.2 fun c hc => by
    have hsolid := h c (hb ▸ List.mem_append_right _ hc)
    rw [hblank c hc] at hsolid
    cases hsolid
  rw [hnil, List.append_nil] at hb
  exact hb.symm

private theorem stripSuffix?_of_not_mem {c : Char} {t : Text} (h : c ∉ t) :
    Text.stripSuffix? [c] t = none := by
  refine if_neg fun hs => h ?_
  exact (List.isSuffixOf_iff_suffix.1 hs).subset List.mem_cons_self

private theorem stripSuffix?_append (t u : Text) : Text.stripSuffix? u (t ++ u) = some t := by
  rw [Text.stripSuffix?, if_pos (List.isSuffixOf_iff_suffix.2 (List.suffix_append t u))]
  simp

private theorem not_mem_of_isPlain {name : Text} (h : ∀ c ∈ name, isPlain c) {d : Char}
    (hd : d ∈ specials) : d ∉ name := fun hm => ne_of_isPlain (h d hm) hd rfl

private theorem patternOf_plain (isAnchored : Bool) {name : Text} (hne : name ≠ [])
    (h : ∀ c ∈ name, isPlain c) :
    patternOf isAnchored name = (if isAnchored then [] else "**/".toList) ++ name := by
  have hstar := not_mem_of_isPlain h (d := '*') (by decide)
  have hslash := not_mem_of_isPlain h (d := '/') (by decide)
  have hstars : name ≠ ['*', '*'] := by
    rintro rfl
    exact hstar (by decide)
  have hends (front : Text) : ¬ "/**".toList <:+ front ++ name := by
    rintro ⟨x, hx⟩
    have hlast := congrArg List.getLast? hx
    rw [List.getLast?_append, List.getLast?_append, List.getLast?_eq_some_getLast hne] at hlast
    have heq : '*' = name.getLast hne := Option.some.inj hlast
    exact hstar (heq ▸ List.getLast_mem hne)
  cases isAnchored with
  | true => simpa [patternOf, hstars] using hends []
  | false => simpa [patternOf, hstars, hslash] using hends "**/".toList

private theorem ofName?_plain (isException isAnchored directoriesOnly : Bool) {name : Text}
    (hne : name ≠ []) (h : ∀ c ∈ name, isPlain c) :
    ofName? isException isAnchored (name ++ if directoriesOnly then ['/'] else []) =
      some
        { parts := (if isAnchored then [] else [leading]) ++ name.map literal
          isException, directoriesOnly } := by
  have hread : ofText? [] (.parts '/') (patternOf isAnchored name) =
      some ((if isAnchored then [] else [leading]) ++ name.map literal) := by
    rw [patternOf_plain isAnchored hne h]
    cases isAnchored with
    | true => exact ofText?_plain h [] '/'
    | false => exact ofText?_plain h [leading] '/'
  cases directoriesOnly with
  | false =>
    have hslash := not_mem_of_isPlain h (d := '/') (by decide)
    rw [if_neg Bool.false_ne_true, List.append_nil, ofName?, stripSuffix?_of_not_mem hslash]
    dsimp only
    rw [hread, Option.map_some]
  | true =>
    have hback := not_mem_of_isPlain h (d := '\\') (by decide)
    rw [if_pos rfl, ofName?, stripSuffix?_append]
    dsimp only
    rw [stripSuffix?_of_not_mem hback, Option.getD_none, hread, Option.map_some]

theorem ofLine?_plain (isException isAnchored directoriesOnly : Bool) {name : Text}
    (hne : name ≠ []) (h : ∀ c ∈ name, isPlain c) :
    ofLine? ((if isException then ['!'] else []) ++ ((if isAnchored then ['/'] else []) ++ (name ++
        if directoriesOnly then ['/'] else []))) =
      some
        { parts := (if isAnchored then [] else [leading]) ++ name.map literal
          isException, directoriesOnly } := by
  obtain ⟨c, cs, rfl⟩ := List.exists_cons_of_ne_nil hne
  have hc := h c List.mem_cons_self
  have hsolid : ∀ d ∈ (if isException then ['!'] else []) ++ ((if isAnchored then ['/'] else []) ++
      ((c :: cs) ++ if directoriesOnly then ['/'] else [])), Text.isBlank d = false := by
    intro d hd
    simp only [List.mem_append, List.mem_ite_nil_right, List.mem_singleton] at hd
    rcases hd with ⟨-, rfl⟩ | ⟨-, rfl⟩ | hd | ⟨-, rfl⟩
    · decide
    · decide
    · exact isBlank_of_isPlain (h d hd)
    · decide
  have hhash : c ≠ '#' := ne_of_isPlain hc (by decide)
  have hbang : c ≠ '!' := ne_of_isPlain hc (by decide)
  have hback : c ≠ '\\' := ne_of_isPlain hc (by decide)
  have hslash : c ≠ '/' := ne_of_isPlain hc (by decide)
  rw [ofLine?, trimEnd_of_not_isBlank hsolid, ite_self]
  rw [← ofName?_plain isException isAnchored directoriesOnly hne h]
  cases isException <;> cases isAnchored <;> simp [ofPattern?, *]

theorem verdict?_append (rules : List IgnoreRule) (rule : IgnoreRule) (path : Text)
    (isDirectory : Bool) :
    verdict? (rules ++ [rule]) path isDirectory =
      if rule.appliesTo path isDirectory then some !rule.isException
      else verdict? rules path isDirectory := by
  rw [verdict?, List.reverse_append, List.reverse_singleton, List.singleton_append,
    List.find?_cons]
  cases rule.appliesTo path isDirectory <;> rfl

/-- A line with a plain name is about what has the name at any depth, or next to the file when a
slash stands before it. A slash behind the name makes it about directories alone, and an exclamation
mark at the front makes it show what it is about. The last line that is about something counts. -/
theorem verdict?_plain (rules : List IgnoreRule) (isException isAnchored directoriesOnly : Bool)
    {name : Text} (hne : name ≠ []) (h : ∀ c ∈ name, isPlain c) (path : Text)
    (isDirectory : Bool) :
    ∃ rule, ofLine? ((if isException then ['!'] else []) ++ ((if isAnchored then ['/'] else []) ++
        (name ++ if directoriesOnly then ['/'] else []))) = some rule ∧
      verdict? (rules ++ [rule]) path isDirectory =
        if (path = name ∨ (!isAnchored ∧ '/' :: name <:+ path)) ∧ (directoriesOnly → isDirectory)
        then some !isException else verdict? rules path isDirectory := by
  refine ⟨_, ofLine?_plain isException isAnchored directoriesOnly hne h, ?_⟩
  rw [verdict?_append]
  refine if_congr ?_ rfl rfl
  rw [appliesTo, Bool.and_eq_true]
  refine and_congr ?_ ?_
  · cases isAnchored with
    | true => simpa using isMatch_literals name path
    | false => simpa using isMatch_leading name path
  · cases directoriesOnly <;> simp

end IgnoreRule
end Javadoc
