import Javadoc.Proofs.Sync.Descriptions
import Javadoc.Proofs.Template.Ends
import Javadoc.Proofs.TypeExpr.Spelling

/-! Types in words: what a type expression is read from, and the slashes in what it is spelled out
with. -/
namespace Javadoc

namespace TypeExpr
open Text Template

private theorem readName_infix (t : Text) : (readName t).1 <:+: t ∧ (readName t).2 <:+ t := by
  have hstart := List.dropWhile_suffix (l := t) isBlank
  exact ⟨(isInfix_trim _).trans ((List.takeWhile_prefix _).isInfix.trans hstart.isInfix),
    readName_suffix t⟩

private theorem head?_link (name : Text) : (link name).head? = some '\x7b' := rfl

private theorem clean_link {name : Text} (h : Clean name) : Clean (link name) := by
  have hspace : "\x7b@link ".toList = "\x7b@link".toList ++ [' '] := by decide
  have hlink : link name = ("\x7b@link".toList ++ ' ' :: name) ++ ['\x7d'] := by
    refine (congrArg (fun opening => opening ++ name ++ ['\x7d']) hspace).trans ?_
    simp only [List.append_assoc, List.singleton_append]
  have hword : '/' ∉ "\x7b@link".toList := by decide
  rw [hlink]
  exact ((clean_of_not_mem hword).append_space h).append (fits_of_not_mem (by decide))

private theorem clean_joinWith_and {ts : List Text} (h : ∀ t ∈ ts, Clean t) :
    Clean (joinWith " and ".toList ts) := by
  induction ts with
  | nil => exact fits_nil.clean
  | cons t ts ih =>
    have ht := h t List.mem_cons_self
    cases ts with
    | nil => exact ht
    | cons u us =>
      have hand : joinWith " and ".toList (t :: u :: us) =
          (t ++ ' ' :: "and".toList) ++ ' ' :: joinWith " and ".toList (u :: us) := by
        simp [joinWith]
      have hword : '/' ∉ "and".toList := by decide
      rw [hand]
      exact (ht.append_space (clean_of_not_mem hword)).append_space
        (ih fun v hv => h v (List.mem_cons_of_mem _ hv))

/-- A type in words is as harmless as its name and its arguments. -/
theorem render_spec (linked : Bool) {name : Text} {args : List TypeExpr} (dims : Nat)
    (hn : Clean name) (ha : ∀ t ∈ renderEach linked args, Clean t) :
    Clean ((mk name args dims).render linked) ∧
      (name ≠ [] → name.head? ≠ some '/' →
        ((mk name args dims).render linked).head? ≠ some '/') := by
  have hdims : '/' ∉ writeDims dims := by
    induction dims with
    | zero => simp [writeDims]
    | succ n ih => simp [writeDims, ih]
  have hshown : Clean (if linked && isLinked name then link name else name) := by
    split
    · exact clean_link hn
    · exact hn
  have hshown := hshown.append (fits_of_not_mem hdims)
  refine ⟨?_, fun hne hhead => ?_⟩
  · rw [render]
    split
    · exact hshown
    · have hword : '/' ∉ "of".toList := by decide
      have hof := (hshown.append_space (clean_of_not_mem hword)).append_space (clean_joinWith_and ha)
      simpa using hof
  · have hfront (rest : Text) :
        ((if linked && isLinked name then link name else name) ++ rest).head? ≠ some '/' := by
      obtain ⟨c, u, rfl⟩ := List.exists_cons_of_ne_nil hne
      split
      · rw [List.head?_append, head?_link]
        simp
      · simpa using hhead
    rw [render]
    split
    · exact hfront _
    · simpa only [List.append_assoc] using hfront _

def ReadsClean (linked : Bool) (t : Text) : Prop :=
  ∀ e rest, read t = some (e, rest) → rest <:+ t ∧ Clean (e.render linked) ∧
    ((trimStart t).head? ≠ some '/' → (e.render linked).head? ≠ some '/')

def ReadsCleanArgs (linked : Bool) (t : Text) : Prop :=
  ∀ args rest, readArgs t = some (args, rest) → rest <:+ t ∧
    ∀ u ∈ renderEach linked args, Clean u

/-- A type is harmless if the arguments in its brackets are. -/
theorem readsClean_of_args {linked : Bool} {t : Text} (ht : Clean t)
    (hargs : ∀ u, u.length < t.length → Clean u → ReadsCleanArgs linked u) : ReadsClean linked t := by
  intro e rest h
  obtain ⟨hname, hrest⟩ := readName_infix t
  have hclean := ht.mono hname
  rw [read] at h
  simp only at h
  split at h
  · cases h
  · next hne =>
    split at h
    · obtain ⟨⟨k, last⟩, hdims, he⟩ := Option.map_eq_some_iff.1 h
      cases he
      obtain ⟨h₁, h₂⟩ := @render_spec linked _ [] k hclean (by simp [renderEach])
      exact ⟨(readDims_suffix hdims).trans hrest, h₁,
        fun hh => h₂ hne (by rwa [head?_readName t hne])⟩
    · next inside hopen =>
      split at h
      · cases h
      · next args rest' hread =>
        obtain ⟨⟨k, last⟩, hdims, he⟩ := Option.map_eq_some_iff.1 h
        cases he
        have hinside := (eat?_suffix hopen).trans hrest
        have hshort : inside.length < t.length :=
          (length_eat? hopen).trans (length_readName t hne)
        obtain ⟨hsuffix, hall⟩ := hargs inside hshort (ht.mono hinside.isInfix) _ _ hread
        obtain ⟨h₁, h₂⟩ := render_spec linked k hclean hall
        exact ⟨(readDims_suffix hdims).trans (hsuffix.trans hinside), h₁,
          fun hh => h₂ hne (by rwa [head?_readName t hne])⟩

/-- Arguments are harmless if the first one and those behind its comma are. -/
theorem readsCleanArgs_of_first {linked : Bool} {t : Text} (ht : Clean t)
    (hfirst : ReadsClean linked t)
    (hmore : ∀ u, u.length < t.length → Clean u → ReadsCleanArgs linked u) :
    ReadsCleanArgs linked t := by
  intro args rest h
  rw [readArgs] at h
  split at h
  · cases h
  · next arg rest' harg =>
    obtain ⟨hsuffix, hclean, -⟩ := hfirst _ _ harg
    split at h
    · next more hcomma =>
      split at h
      · next hshort =>
        obtain ⟨⟨args', last⟩, hargs, he⟩ := Option.map_eq_some_iff.1 h
        cases he
        have hm := (eat?_suffix hcomma).trans hsuffix
        obtain ⟨hlast, hall⟩ := hmore more hshort (ht.mono hm.isInfix) _ _ hargs
        refine ⟨hlast.trans hm, ?_⟩
        rw [renderEach]
        exact List.forall_mem_cons.2 ⟨hclean, hall⟩
      · cases h
    · obtain ⟨last, hlast, he⟩ := Option.map_eq_some_iff.1 h
      cases he
      exact ⟨(eat?_suffix hlast).trans hsuffix, by simpa [renderEach] using hclean⟩

/-- What a type expression is read from tells what it can be spelled out with. -/
theorem read_spec (linked : Bool) (t : Text) (ht : Clean t) :
    ReadsClean linked t ∧ ReadsCleanArgs linked t := by
  induction hlen : t.length using Nat.strong_induction_on generalizing t with
  | _ n ih =>
  have hargs (u : Text) (hu : u.length < t.length) (hc : Clean u) : ReadsCleanArgs linked u :=
    (ih u.length (hlen ▸ hu) u hc rfl).2
  have hfirst := readsClean_of_args ht hargs
  exact ⟨hfirst, readsCleanArgs_of_first ht hfirst hargs⟩

end TypeExpr

namespace Template
open Text

private theorem fits_describeType (linked : Bool) {type : Text} (h : isInert type) :
    Fits (describeType linked type) := by
  have hclean := (Fits.of_isInert h).clean
  have hhead : (trimStart type).head? ≠ some '/' := by
    simp only [isInert, Bool.and_eq_true, bne_iff_ne] at h
    exact h.1.1
  rw [describeType]
  split
  · next e he =>
    rw [TypeExpr.ofText?] at he
    split at he
    · next e' rest hread =>
      split at he
      · cases he
        obtain ⟨-, h₁, h₂⟩ := (TypeExpr.read_spec linked type hclean).1 _ _ hread
        exact ⟨h₁, h₂ hhead⟩
      · cases he
    · cases he
  · refine ⟨hclean.mono (isInfix_trim type), fun hv => ?_⟩
    have hne : trim type ≠ [] := by
      intro hnil
      rw [hnil] at hv
      cases hv
    exact hhead (by rw [← TypeExpr.head?_trim type hne, hv])

private theorem spot_linkedReturnType : Spot linkedReturnType where
  ends := ⟨"\x7b@link ".toList ++ Tag.returnType.marker, '\x7d', by decide, rfl⟩
  plain := List.all_iff_forall_prop.1 (by decide)

theorem Sealed.enterReturnType {t : Text} (h : Sealed t) {type : Text} (ht : isInert type) :
    Sealed (enterReturnType type t) := by
  exact (h.replaceAll spot_linkedReturnType (fits_describeType true ht)).enter .returnType
    (fits_describeType false ht)

end Template
end Javadoc
