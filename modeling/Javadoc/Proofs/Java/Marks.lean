import Javadoc.Declaration.Lookup
import Javadoc.Proofs.Java.Tree
import Mathlib.Data.List.Chain
import Mathlib.Data.List.Nodup

/-! What the tokens of a tree are to its members: which of them start a member, which lie in the
body of a constructor or setter, and to the text of which type they belong. -/
namespace Javadoc.Java

structure Mark where
  /-- The path of the type in whose own text the blanks and comments before the token lie. -/
  path : Text
  /-- Whether the token is the first one of a head. -/
  isHead : Bool
  /-- Whether the token lies behind the opening of the body of a constructor or setter. -/
  inBody : Bool
  token : Token

def Member.ownsEntries : Member → Bool
  | .constructor _ => true
  | .method m => m.role == .mutator
  | _ => false

namespace Tree

def headMarks (outer path : Text) (head : List Piece) : List Mark :=
  match head.flatMap Piece.tokens with
  | [] => []
  | t :: ts => ⟨outer, true, false, t⟩ :: ts.map (⟨path, false, false, ·⟩)

def lastMarks (path : Text) (inBody : Bool) (last : Piece) : List Mark :=
  match last.tokens with
  | [] => []
  | t :: ts => ⟨path, false, false, t⟩ :: ts.map (⟨path, false, inBody, ·⟩)

private theorem lastMarks_group (path : Text) (inBody : Bool) (o : Token) (inner : Forest)
    (c : Token) :
    lastMarks path inBody (.group o inner c) = ⟨path, false, false, o⟩ ::
      (inner.tokens.map (⟨path, false, inBody, ·⟩) ++ [⟨path, false, inBody, c⟩]) := by
  simp [lastMarks, Piece.tokens]

def marks (path : Text) : Tree → List Mark
  | nil head => headMarks path path head
  | filler p rest => p.tokens.map (⟨path, false, false, ·⟩) ++ rest.marks path
  | plain head last rest =>
    headMarks path path head ++
      (lastMarks path ((Member.ofHead head (bodyAt last)).any Member.ownsEntries) last ++
        rest.marks path)
  | type _ name head o inside c rest =>
    let inner := ClassDecl.pathIn path name
    headMarks path inner head ++ ⟨inner, false, false, o⟩ ::
      (inside.marks inner ++ ⟨inner, false, false, c⟩ :: rest.marks path)

theorem map_token_headMarks (outer path : Text) (head : List Piece) :
    (headMarks outer path head).map Mark.token = head.flatMap Piece.tokens := by
  unfold headMarks
  split
  · next h => simp [h]
  · next h => simp [h, Function.comp_def]

theorem map_token_lastMarks (path : Text) (inBody : Bool) (last : Piece) :
    (lastMarks path inBody last).map Mark.token = last.tokens := by
  unfold lastMarks
  split
  · next h => simp [h]
  · next h => simp [h, Function.comp_def]

theorem map_token_marks (path : Text) (T : Tree) : (T.marks path).map Mark.token = T.tokens := by
  induction T generalizing path with
  | nil head => exact map_token_headMarks path path head
  | filler p rest ih => simp [marks, tokens, ih, Function.comp_def]
  | plain head last rest ih =>
    simp [marks, tokens, ih, map_token_headMarks, map_token_lastMarks]
  | type kind name head o inside c rest ih₁ ih₂ =>
    simp [marks, tokens, ih₁, ih₂, map_token_headMarks]

/-- Distinct tokens have one part each. -/
theorem eq_of_mem_marks {path : Text} {T : Tree} (hn : T.tokens.Nodup) {m n : Mark}
    (hm : m ∈ T.marks path) (hm' : n ∈ T.marks path) (ht : m.token = n.token) : m = n := by
  rw [← map_token_marks path T] at hn
  exact List.inj_on_of_nodup_map hn hm hm' ht

def IsFence (t : Token) : Prop := ∃ c, t.text = [c] ∧ Lexeme.isFence c

private theorem isFence_of_is {t : Token} {s : String} {c : Char} (h : t.is s) (hs : s.toList = [c])
    (hc : Lexeme.isFence c) : IsFence t := by
  rw [Token.is, hs, Bool.and_eq_true, beq_iff_eq] at h
  exact ⟨c, h.2, hc⟩

theorem isFence_of_isClosing {t : Token} (h : Forest.isClosing t) : IsFence t := by
  simp only [Forest.isClosing, Bool.or_eq_true] at h
  rcases h with (h | h) | h
  · exact isFence_of_is h rfl rfl
  · exact isFence_of_is h rfl rfl
  · exact isFence_of_is h rfl rfl

/-- Tokens that are read as such are those of their text, if the last one is a fence: then it does not
matter what they are read in front of. -/
theorem scan_of_reads_fence {ts : List Token} {t : Token} (h : ∀ u ∈ ts ++ [t], u.IsProper)
    (ht : IsFence t) {r : Text} (hr : Lexeme.Reads ((ts ++ [t]).flatMap Token.lexemes) r) :
    Token.scan ((ts ++ [t]).flatMap Token.source) = Token.place 0 (ts ++ [t]) := by
  obtain ⟨c, hc, hfence⟩ := ht
  have hlast : (ts ++ [t]).flatMap Token.lexemes =
      (ts.flatMap Token.lexemes ++ t.lead) ++ [t.lexeme] := by
    simp [Token.lexemes]
  rw [hlast] at hr
  have hr := hr.fence hc hfence []
  rw [← hlast] at hr
  have hscan := Token.scan_of_reads h (fun _ hl => absurd hl List.not_mem_nil) (by simpa using hr)
  simpa using hscan

private def Precedes (m n : Mark) : Prop := n.isHead → IsFence m.token

private theorem chain_row (path : Text) (inBody : Bool) (ts : List Token) (m : Mark) :
    (m :: ts.map (⟨path, false, inBody, ·⟩)).IsChain Precedes := by
  induction ts generalizing m with
  | nil => exact .singleton m
  | cons t ts ih => exact List.isChain_cons_cons.2 ⟨by simp [Precedes], ih _⟩

private theorem chain_inner (path : Text) (inBody : Bool) {last : Mark} (hl : last.isHead = false)
    {l : List Mark} (h : (last :: l).IsChain Precedes) (ts : List Token) (m : Mark) :
    (m :: (ts.map (⟨path, false, inBody, ·⟩) ++ last :: l)).IsChain Precedes := by
  induction ts generalizing m with
  | nil => exact List.isChain_cons_cons.2 ⟨by simp [Precedes, hl], h⟩
  | cons t ts ih => exact List.isChain_cons_cons.2 ⟨by simp [Precedes], ih _⟩

private theorem chain_head (outer path : Text) (head : List Piece) {last : Mark}
    (hl : last.isHead = false) {l : List Mark} (h : (last :: l).IsChain Precedes) {m : Mark}
    (hm : IsFence m.token) : (m :: (headMarks outer path head ++ last :: l)).IsChain Precedes := by
  unfold headMarks
  split
  · exact List.isChain_cons_cons.2 ⟨by simp [Precedes, hl], h⟩
  · exact List.isChain_cons_cons.2 ⟨fun _ => hm, chain_inner path false hl h _ _⟩

private theorem chain_ofForest (path : Text) (kind : ClassKind) (constants : Bool)
    (head : List Piece) (hh : constants → head = []) {a b : Bool} {f : Forest} (hf : f.Row a b)
    {m : Mark} (hm : constants = false → IsFence m.token) :
    (m :: (ofForest kind constants head f).marks path).IsChain Precedes := by
  induction f generalizing path kind constants head a b m with
  | nil =>
    simp only [ofForest, marks, headMarks]
    split
    · exact .singleton m
    · next t ts ht =>
      have hc : constants = false := by
        by_contra hc
        simp [hh (by simpa using hc)] at ht
      exact List.isChain_cons_cons.2 ⟨fun _ => hm hc, chain_row path false ts _⟩
  | leaf t rest ih =>
    simp only [Forest.Row] at hf
    have hrest : ∃ a b, rest.Row a b := by
      split at hf
      · exact ⟨_, _, hf.2⟩
      · split at hf
        · exact ⟨_, _, hf.2⟩
        · exact ⟨_, _, hf⟩
    obtain ⟨a, b, hr⟩ := hrest
    simp only [ofForest]
    split
    · refine List.isChain_cons_cons.2
        ⟨by simp [Precedes], ih path kind _ _ (by simp) hr fun ht => ?_⟩
      exact isFence_of_is (s := ";") (by simpa using ht) rfl rfl
    · split
      · next ht =>
        have hfence := isFence_of_is ht rfl rfl
        refine chain_head _ _ head rfl ?_ (hm (by simp_all))
        exact ih path kind _ _ (by simp) hr fun _ => hfence
      · next hc _ => exact ih path kind _ _ (by simp) hr fun _ => hm (by simpa using hc)
  | group o inner c rest ih₁ ih₂ =>
    obtain ⟨-, -, hcl, hi, hr⟩ := hf
    have hc := isFence_of_isClosing hcl
    simp only [ofForest]
    split
    · have h := ih₂ path kind true [] (by simp) hr (m := ⟨path, false, false, c⟩) fun _ => hc
      have := chain_inner path false rfl h (o :: inner.tokens) m
      simpa [marks, Piece.tokens] using this
    · next hconst =>
      have hm := hm (by simpa using hconst)
      have h (path' : Text) (inBody : Bool) := ih₂ path kind false [] (by simp) hr
        (m := ⟨path', false, inBody, c⟩) fun _ => hc
      split
      · split
        · next hbrace nestedKind name _ =>
          refine chain_head _ _ head rfl ?_ hm
          have ho : IsFence o := isFence_of_is (s := "\x7b") (by simp_all) rfl rfl
          have hi := ih₁ (ClassDecl.pathIn path name) nestedKind (nestedKind == .enum) [] (by simp)
            hi (m := ⟨ClassDecl.pathIn path name, false, false, o⟩) fun _ => ho
          refine List.IsChain.append hi (h (ClassDecl.pathIn path name) false) ?_
          simp [Precedes]
        · rw [marks, lastMarks_group, List.cons_append, List.append_assoc]
          exact chain_head _ _ head rfl (chain_inner path _ rfl (h path _) inner.tokens _) hm
      · exact ih₂ path kind _ _ (by simp) hr fun _ => hm

/-- Whatever comes before the first token of a head is a fence. -/
theorem isChain_marks (path source : Text) :
    ((scan source).marks path).IsChain fun m n => n.isHead → IsFence m.token := by
  have hsemi : IsFence ⟨0, [], ⟨.symbol, [';']⟩⟩ := ⟨';', rfl, rfl⟩
  exact (chain_ofForest path .class false [] (by simp) (Forest.row_ofTokens _)
    (m := ⟨path, false, false, _⟩) fun _ => hsemi).tail

end Tree
end Javadoc.Java
