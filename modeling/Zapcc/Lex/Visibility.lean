import Mathlib.Data.List.TakeWhile
import Zapcc.Lex.EraseMacros

/-!
# Which definition of a macro is visible

`getMacroDefinition` skips the directives of files that this compilation does not include, but
looks at them only when the flag of the identifier is set, and the flag follows the latest
directive of all files. `getMacroDefinition_correct_iff` says exactly when the answer is the
latest directive of an included file.
-/

namespace Zapcc.Lex

open LinkedList List Option

theorem dropWhile_address {p : Addr → Bool} {q : Appended → Bool} {chain : List Appended}
    (hpq : ∀ e ∈ chain, p e.address = q e) :
    (chain.map Appended.address).dropWhile p = (chain.dropWhile q).map Appended.address := by
  induction chain with
  | nil => rfl
  | cons e rest ih =>
    have he := hpq e (mem_cons_self ..)
    rw [map_cons, dropWhile_cons, dropWhile_cons, he, ih fun x hx => hpq x (mem_cons_of_mem _ hx)]
    cases q e <;> rfl

/-- The entry that `getMacroDefinition` stops at: it skips the visibility directives in front,
and then the directives that do not count. -/
def History.found (pp : Preprocessor) (chain : List Appended) : Option Appended :=
  ((chain.dropWhile fun e => e.kind.isVisibility).dropWhile
    fun e => !pp.wasIncluded e.location).head?

/-- `getMacroDefinition` always returns, and answers with the entry it stops at if this is a
definition. -/
theorem Attached.getMacroDefinition_eq {pp : Preprocessor} {h : History} (hpp : Attached pp h)
    (II : IdentifierInfo) :
    pp.getMacroDefinition II = some (if pp.hasMacroDefinition II then
      ((History.found pp (h.chain II)).filter fun e => e.kind.isDefine).map Appended.address
    else none) := by
  have hcontent : ∀ e ∈ h.chain II, (pp.directive e.address).kind = e.kind ∧
      (pp.directive e.address).location = e.location := fun e he =>
    hpp.content e (History.mem_chain.mp he).1
  have hfuel := hpp.length_cells_lt II
  obtain ⟨first, hfirst, hlinked⟩ := (hpp.linked II).skipWhile_eq
    (fun a => (pp.directive a).kind.isVisibility) hfuel
  have hvisibility : (h.cells II).dropWhile (fun a => (pp.directive a).kind.isVisibility) =
      ((h.chain II).dropWhile fun e => e.kind.isVisibility).map Appended.address :=
    dropWhile_address fun e he => by rw [(hcontent e he).1]
  rw [hvisibility] at hlinked
  have hsuffix : (h.chain II).dropWhile (fun e => e.kind.isVisibility) <:+ h.chain II :=
    dropWhile_suffix _
  have hrest : (((h.chain II).dropWhile fun e => e.kind.isVisibility).map
      Appended.address).length < pp.fuel := by
    rw [length_map]
    refine Nat.lt_of_le_of_lt hsuffix.length_le ?_
    simpa [History.cells] using hfuel
  obtain ⟨found, hfound, hlinked'⟩ := hlinked.skipWhile_eq
    (fun a => !pp.wasIncluded (pp.directive a).location) hrest
  have hskipped : (((h.chain II).dropWhile fun e => e.kind.isVisibility).map
      Appended.address).dropWhile (fun a => !pp.wasIncluded (pp.directive a).location) =
      (((h.chain II).dropWhile fun e => e.kind.isVisibility).dropWhile
        fun e => !pp.wasIncluded e.location).map Appended.address :=
    dropWhile_address fun e he => by rw [(hcontent e (hsuffix.mem he)).2]
  rw [hskipped] at hlinked'
  have hstart : found = (History.found pp (h.chain II)).map Appended.address := by
    rw [hlinked'.start_eq, head?_map]
    rfl
  unfold Preprocessor.getMacroDefinition
  split
  · rw [hfirst, bind_eq_bind, bind_some, hfound, bind_some, hstart]
    cases hcase : History.found pp (h.chain II) with
    | none => rfl
    | some e =>
      have he : e ∈ h.chain II := hsuffix.mem
        ((dropWhile_suffix _).mem (mem_of_mem_head? hcase))
      simp only [map_some, filter_some, (hcontent e he).1]
      split <;> rfl
  · rfl

/-- A `#define` or an `#undef` of an identifier, the lexer that reads it, and where it stands. -/
structure OwnedDirective where
  lexer : Option PPLexer
  identifier : IdentifierInfo
  /-- The macro that is defined, or nothing for an `#undef`. -/
  definition : Option MacroInfo
  owner : SourceLocation

def OwnedDirective.operation (d : OwnedDirective) : Operation :=
  .append d.lexer d.identifier
    (match d.definition with
    | some mi => .define mi
    | none => .undefine) d.owner

/-- The directives at a location belong to an included file, or to no file. -/
def ownerIncluded (includes : List FileEntry) (location : SourceLocation) : Bool :=
  match location.fileEntry with
  | some fe => includes.contains fe
  | none => true

namespace History

def mostRecentIncluded (includes : List FileEntry) (h : History) (II : IdentifierInfo) :
    Option Appended :=
  (h.chain II).find? fun e => ownerIncluded includes e.location

/-- The definition that is visible: the most recent directive of an included file, if it is a
`#define`. -/
def visible (includes : List FileEntry) (h : History) (II : IdentifierInfo) : Option Appended :=
  (h.mostRecentIncluded includes II).filter fun e => e.kind.isDefine

/-- The latest directive of all files is an `#undef`, but a definition is visible. -/
def UndefinedElsewhere (includes : List FileEntry) (h : History) (II : IdentifierInfo) : Prop :=
  ((h.chain II).head?.map Appended.kind = some .undefine) ∧ (h.visible includes II).isSome

end History

/-- `getMacroDefinition` returns the visible definition: this very directive, if there is one,
and nothing otherwise. -/
def AnswersVisible (pp : Preprocessor) (h : History) (II : IdentifierInfo) : Prop :=
  (pp.getMacroDefinition II).map (Option.map fun a => (a, (pp.directive a).kind)) =
    some ((h.visible pp.includes II).map fun e => (e.address, e.kind))

theorem Log.ofRun_map_operation (ds : List OwnedDirective) :
    (Log.ofRun (ds.map OwnedDirective.operation)).removed = [] ∧
      ∀ e ∈ (Log.ofRun (ds.map OwnedDirective.operation)).appended,
        e.kind.isVisibility = false := by
  induction ds using List.reverseRecOn with
  | nil => exact ⟨rfl, fun e he => by cases he⟩
  | append_singleton before d ih =>
    have hlog : Log.ofRun ((before ++ [d]).map OwnedDirective.operation) =
        (Log.ofRun (before.map OwnedDirective.operation)).perform d.operation := by
      unfold Log.ofRun
      rw [map_append, foldl_append]
      rfl
    rw [hlog]
    refine ⟨ih.1, fun e he => ?_⟩
    rcases mem_append.mp he with he | he
    · exact ih.2 e he
    · rw [mem_singleton.mp he]
      cases d.definition <;> rfl

theorem Log.neverStale_map_operation (ds : List OwnedDirective) :
    Log.NeverStale (ds.map OwnedDirective.operation) := by
  intro before operation hearlier
  have hmem : operation ∈ ds.map OwnedDirective.operation :=
    hearlier.subset (mem_append_right _ (mem_singleton_self _))
  obtain ⟨d, -, rfl⟩ := List.mem_map.mp hmem
  trivial

theorem History.isDefined_of_head? {chain : List Appended}
    (hkinds : ∀ e ∈ chain, e.kind.isVisibility = false) :
    History.isDefined chain = (chain.head?.map fun e => e.kind.isDefine).getD false := by
  cases chain with
  | nil => rfl
  | cons e rest =>
    unfold History.isDefined
    rw [find?_cons, hkinds e (mem_cons_self ..)]
    rfl

/-- Without visibility directives `getMacroDefinition` stops at the most recent directive of an
included file. -/
theorem History.found_eq {pp : Preprocessor} (hcaching : pp.cachingMode = true) {h : History}
    {II : IdentifierInfo} (hkinds : ∀ e ∈ h.chain II, e.kind.isVisibility = false) :
    History.found pp (h.chain II) = h.mostRecentIncluded pp.includes II := by
  have hfirst : (h.chain II).dropWhile (fun e => e.kind.isVisibility) = h.chain II := by
    rw [dropWhile_eq_self_iff]
    intro hlength
    simp [hkinds _ (getElem_mem hlength)]
  unfold History.found History.mostRecentIncluded
  rw [hfirst, ← find?_not_eq_head?_dropWhile]
  congr 1
  funext e
  rw [Bool.not_not]
  unfold Preprocessor.wasIncluded ownerIncluded
  rw [hcaching]
  rfl

theorem Attached.answersVisible_iff {pp : Preprocessor} {h : History} (hpp : Attached pp h)
    (hcaching : pp.cachingMode = true) (hflags : FlagsCorrect pp h)
    (hkinds : ∀ e ∈ h, e.kind.isVisibility = false) (II : IdentifierInfo) :
    AnswersVisible pp h II ↔ ¬ h.UndefinedElsewhere pp.includes II := by
  have hkinds' : ∀ e ∈ h.chain II, e.kind.isVisibility = false := fun e he =>
    hkinds e (History.mem_chain.mp he).1
  have hcontent : ∀ e ∈ h.visible pp.includes II, (pp.directive e.address).kind = e.kind := by
    intro e he
    have hmem : e ∈ h.chain II := mem_of_find?_eq_some (mem_filter_iff.mp he).1
    exact (hpp.content e (History.mem_chain.mp hmem).1).1
  unfold AnswersVisible History.UndefinedElsewhere
  rw [hpp.getMacroDefinition_eq II, hflags II, History.found_eq hcaching hkinds',
    History.isDefined_of_head? hkinds', map_some, some_inj]
  cases hhead : (h.chain II).head? with
  | none =>
    have hnone : h.visible pp.includes II = none := by
      unfold History.visible History.mostRecentIncluded
      rw [head?_eq_none_iff.mp hhead]
      rfl
    simp [hnone]
  | some e =>
    have hvisibility := hkinds' e (mem_of_mem_head? hhead)
    cases hkind : e.kind with
    | define mi =>
      rw [if_pos (by simp [hkind, MacroDirective.Kind.isDefine])]
      refine iff_of_true ?_ (by simp [hkind])
      rw [Option.map_map]
      refine Option.map_congr fun x hx => ?_
      rw [← hcontent x hx]
      rfl
    | undefine =>
      rw [if_neg (by simp [hkind, MacroDirective.Kind.isDefine])]
      cases h.visible pp.includes II with
      | none => simp
      | some x => simp [hkind]
    | visibility isPublic =>
      rw [hkind] at hvisibility
      cases hvisibility

/-- After every sequence of directives of any files, and for every set of included files,
`getMacroDefinition` returns the visible definition if and only if it is not the case that the
latest directive of all files is an `#undef` while a definition is visible. -/
theorem getMacroDefinition_correct_iff (isUserFile : FileEntry → Bool)
    (watched : List IdentifierInfo) (ds : List OwnedDirective) (includes : List FileEntry)
    (II : IdentifierInfo) :
    (∃ pp, (Preprocessor.start isUserFile watched).run (ds.map OwnedDirective.operation) = some pp ∧
      AnswersVisible { pp with includes := includes }
        (Log.ofRun (ds.map OwnedDirective.operation)).appended II) ↔
      ¬ (Log.ofRun (ds.map OwnedDirective.operation)).appended.UndefinedElsewhere includes II := by
  obtain ⟨pp, hpp, hholds, hflags⟩ :=
    run_holds isUserFile watched (ds.map OwnedDirective.operation)
  obtain ⟨hremoved, hkinds⟩ := Log.ofRun_map_operation ds
  have hremaining : (Log.ofRun (ds.map OwnedDirective.operation)).remaining =
      (Log.ofRun (ds.map OwnedDirective.operation)).appended := by
    unfold Log.remaining
    rw [hremoved]
    simp
  have hcorrect := hflags (Log.neverStale_map_operation ds)
  have hattached := hholds.toAttached
  rw [hremaining] at hcorrect hattached
  have hincluded : Attached { pp with includes := includes } _ := hattached.of_eq rfl rfl rfl
  rw [← hincluded.answersVisible_iff hholds.cachingMode hcorrect hkinds II]
  constructor
  · rintro ⟨pp', hpp', hanswers⟩
    rw [hpp] at hpp'
    cases hpp'
    exact hanswers
  · intro hanswers
    exact ⟨pp, hpp, hanswers⟩

/-- `#define X 1` in `a.h`, and then `#define X 1` and `#undef X` in `b.h`. -/
def undefinedElsewhere : List OwnedDirective :=
  [⟨some ⟨false, some "a.h"⟩, "X", some ⟨false, [], "1"⟩, ⟨some "a.h", some "a.h"⟩⟩,
    ⟨some ⟨false, some "b.h"⟩, "X", some ⟨false, [], "1"⟩, ⟨some "b.h", some "b.h"⟩⟩,
    ⟨some ⟨false, some "b.h"⟩, "X", none, ⟨some "b.h", some "b.h"⟩⟩]

/-- A compilation that includes only `a.h` does not see its definition. -/
theorem undefinedElsewhere_not_visible :
    ¬ ∃ pp, (Preprocessor.start (fun _ => true) []).run
        (undefinedElsewhere.map OwnedDirective.operation) = some pp ∧
      AnswersVisible { pp with includes := ["a.h"] }
        (Log.ofRun (undefinedElsewhere.map OwnedDirective.operation)).appended "X" := by
  rintro ⟨pp, hpp, hanswers⟩
  have hanswer : ((Preprocessor.start (fun _ => true) []).run
      (undefinedElsewhere.map OwnedDirective.operation)).map
        (fun pp => ({ pp with includes := ["a.h"] } : Preprocessor).getMacroDefinition "X") =
          some (some none) := by
    decide
  rw [hpp, map_some, some_inj] at hanswer
  unfold AnswersVisible at hanswers
  rw [hanswer] at hanswers
  have hvisible : (History.visible ["a.h"]
      (Log.ofRun (undefinedElsewhere.map OwnedDirective.operation)).appended "X").isSome := by
    decide
  rw [map_eq_none_iff.mp (some.inj hanswers).symm] at hvisible
  cases hvisible

end Zapcc.Lex
