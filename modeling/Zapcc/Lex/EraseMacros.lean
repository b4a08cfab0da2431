import Mathlib.Data.List.Infix
import Zapcc.Lex.MacroHistory

/-!
# Removing the macros of unloaded files

An arbitrary sequence of appended directives and calls of `eraseMacros` is a run of the macro
state. The main result is `run_intact`: the search for the directive that points to a removed one
always ends, what is left of every chain is its append history without the removed directives,
and the flags are correct as long as no removal is `Stale`. `run_attached` says which part of
this needs no condition.
-/

namespace Zapcc.Lex

open LinkedList List

namespace History

/-- The history without the directives that are recorded in a list. -/
def dropSlot (h : History) (slot : Slot) : History := h.filter fun e => e.slot ≠ slot

/-- Removing the directive `e` changes whether its identifier is defined, and the flag does not
follow: only visibility directives are later than `e`, and what is below `e` decides otherwise. -/
def Stale (h : History) (e : Appended) : Prop :=
  ∃ later earlier, h.chain e.identifier = later ++ e :: earlier ∧ later ≠ [] ∧
    (∀ d ∈ later, d.kind.isVisibility = true) ∧ e.kind.isVisibility = false ∧
    e.kind.isDefine ≠ isDefined earlier

/-- No directive is stale at the moment when it is removed. -/
def NoneStale : History → List Appended → Prop
  | _, [] => True
  | h, e :: rest => ¬ h.Stale e ∧ (h.erase e.address).NoneStale rest

/-- No directive is stale when the directives of the given lists are removed, one list after
the other and each from its end. -/
def NoneStaleIn : History → List Slot → Prop
  | _, [] => True
  | h, slot :: rest => h.NoneStale (h.ofSlot slot).reverse ∧ (h.dropSlot slot).NoneStaleIn rest

theorem foldl_erase (es : List Appended) (h : History) :
    es.foldl (fun h e => h.erase e.address) h =
      h.filter fun x => x.address ∉ es.map Appended.address := by
  induction es generalizing h with
  | nil => simp
  | cons e rest ih =>
    rw [foldl_cons, ih, erase, filter_filter]
    congr 1
    simp only [map_cons, mem_cons, not_or, Bool.decide_and, Bool.and_comm]

theorem isDefined_append (later earlier : List Appended) :
    isDefined (later ++ earlier) =
      if ∀ d ∈ later, d.kind.isVisibility = true then isDefined earlier else isDefined later := by
  induction later with
  | nil => simp
  | cons d later ih =>
    unfold isDefined at ih ⊢
    cases hvisibility : d.kind.isVisibility with
    | true => simpa [hvisibility] using ih
    | false => simp [hvisibility]

variable {h : History}

theorem isDefined_of_not_stale {e : Appended} {later earlier : List Appended}
    (hsplit : h.chain e.identifier = later ++ e :: earlier) (hlater : later ≠ [])
    (hstale : ¬ h.Stale e) : isDefined (later ++ earlier) = isDefined (later ++ e :: earlier) := by
  rw [isDefined_append, isDefined_append]
  split
  · next hall =>
      cases hvisibility : e.kind.isVisibility with
      | true => simp [isDefined, hvisibility]
      | false =>
        by_contra hne
        refine hstale ⟨later, earlier, hsplit, hlater, hall, hvisibility, ?_⟩
        simpa [isDefined, hvisibility, eq_comm] using hne
  · rfl

end History

theorem Removes.flagsCorrect {pp pp' : Preprocessor} {e : Appended}
    (hremoves : Removes pp h e pp') (hpp : Attached pp h) (he : e ∈ h) (hstale : ¬ h.Stale e)
    (hflags : FlagsCorrect pp h) : FlagsCorrect pp' (h.erase e.address) := by
  intro II
  rw [hremoves.flags II]
  split
  · rfl
  · next hlatest =>
      rw [hflags II]
      by_cases hII : II = e.identifier
      · obtain ⟨later, earlier, hsplit, herase⟩ := hpp.chain_split he
        have hlater : later ≠ [] := by
          intro heq
          subst heq
          rw [hII, hsplit] at hlatest
          exact hlatest rfl
        rw [hII, herase, hsplit]
        exact (History.isDefined_of_not_stale hsplit hlater hstale).symm
      · rw [hpp.chain_erase_of_ne he hII]

/-- What removing some directives does to a state. -/
structure RemovesAll (pp : Preprocessor) (h : History) (es : List Appended)
    (pp' : Preprocessor) : Prop extends Preprocessor.SameRest pp pp' where
  attached : Attached pp' (es.foldl (fun h e => h.erase e.address) h)
  flags : FlagsCorrect pp h → h.NoneStale es →
    FlagsCorrect pp' (es.foldl (fun h e => h.erase e.address) h)
  allocated : pp'.allocated = pp.allocated
  recorded : ∀ slot, pp'.recorded slot = pp.recorded slot
  tracked : pp'.commandLineMainIdentifiersIdentifiers = pp.commandLineMainIdentifiersIdentifiers

theorem Attached.removeAll {pp : Preprocessor} (hpp : Attached pp h)
    (es : List Appended) (hes : ∀ e ∈ es, e ∈ h) (hnodup : (es.map Appended.address).Nodup) :
    ∃ pp', (es.map fun e => (e.identifier, e.address)).foldlM
        (fun (pp : Preprocessor) pair => pp.removeMacro pair.1 pair.2) pp = some pp' ∧
      RemovesAll pp h es pp' := by
  induction es generalizing pp h with
  | nil => exact ⟨pp, rfl, .refl pp, hpp, fun hflags _ => hflags, rfl, fun _ => rfl, rfl⟩
  | cons e rest ih =>
    have he := hes e (mem_cons_self ..)
    obtain ⟨middle, hmiddle, hremoves⟩ := hpp.removeMacro he
    rw [map_cons, nodup_cons] at hnodup
    have hrest : ∀ x ∈ rest, x ∈ h.erase e.address := by
      intro x hx
      refine mem_filter.mpr ⟨hes x (mem_cons_of_mem _ hx), decide_eq_true ?_⟩
      intro heq
      exact hnodup.1 (heq ▸ mem_map_of_mem hx)
    obtain ⟨pp', hpp', hall⟩ := ih hremoves.attached hrest hnodup.2
    refine ⟨pp', ?_, hremoves.toSameRest.trans hall.toSameRest, hall.attached,
      fun hflags hstale => ?_, hall.allocated.trans hremoves.allocated,
      fun slot => (hall.recorded slot).trans (hremoves.recorded slot),
      hall.tracked.trans hremoves.tracked⟩
    · rw [map_cons, foldlM_cons, hmiddle]
      exact hpp'
    · exact hall.flags (hremoves.flagsCorrect hpp he hstale.1 hflags) hstale.2

/-- Empty a list of recorded directives. -/
def Preprocessor.clear (pp : Preprocessor) : Slot → Preprocessor
  | .generated fe =>
    { pp with generatedMacros := Function.update pp.generatedMacros fe [] }
  | .need => { pp with needMacros := [] }
  | .commandLine => { pp with generatedMacrosCommandLine := [] }
  | .unrecorded => pp

theorem Preprocessor.recorded_clear (pp : Preprocessor) (slot other : Slot)
    (hslot : slot ≠ .unrecorded) :
    (pp.clear slot).recorded other = if other = slot then [] else pp.recorded other := by
  cases slot with
  | generated fe =>
    cases other with
    | generated fe' =>
      by_cases hfe : fe' = fe
      · simp [clear, recorded, hfe]
      · simp [clear, recorded, hfe]
    | _ => rfl
  | need | commandLine => cases other <;> rfl
  | unrecorded => exact absurd rfl hslot

/-- The macro state holds a history, in caching mode and without modules. -/
structure Represents (pp : Preprocessor) (h : History) : Prop extends Attached pp h where
  recorded : Recorded pp h
  cachingMode : pp.cachingMode = true
  leafModuleMacros : ∀ II, pp.leafModuleMacros II = false

/-- What removing directives leaves as it is. -/
structure Erases (pp pp' : Preprocessor) : Prop extends Preprocessor.SameRest pp pp' where
  allocated : pp'.allocated = pp.allocated
  tracked : pp'.commandLineMainIdentifiersIdentifiers = pp.commandLineMainIdentifiersIdentifiers

namespace Represents

variable {pp : Preprocessor} {h : History}

theorem eraseSlot (hpp : Represents pp h) {slot : Slot} (hslot : slot ≠ .unrecorded) :
    ∃ pp', pp.removeMacrosVector (pp.recorded slot) = some pp' ∧
      Represents (pp'.clear slot) (h.dropSlot slot) ∧
      (FlagsCorrect pp h → h.NoneStale (h.ofSlot slot).reverse →
        FlagsCorrect (pp'.clear slot) (h.dropSlot slot)) ∧ Erases pp (pp'.clear slot) := by
  have hmem : ∀ e ∈ (h.ofSlot slot).reverse, e ∈ h := fun e he =>
    (mem_filter.mp (mem_reverse.mp he)).1
  have hnodup : ((h.ofSlot slot).reverse.map Appended.address).Nodup := by
    rw [map_reverse, nodup_reverse]
    exact hpp.nodup.sublist (filter_sublist.map _)
  obtain ⟨pp', hpp', hall⟩ := hpp.toAttached.removeAll _ hmem hnodup
  have hrest : (h.ofSlot slot).reverse.foldl (fun h e => h.erase e.address) h =
      h.dropSlot slot := by
    rw [History.foldl_erase]
    refine filter_congr fun x hx => ?_
    rw [decide_eq_decide, not_iff_not, mem_map]
    constructor
    · rintro ⟨e, he, heq⟩
      rw [← hpp.eq_of_address (hmem e he) hx heq]
      exact of_decide_eq_true (mem_filter.mp (mem_reverse.mp he)).2
    · intro hx'
      exact ⟨x, mem_reverse.mpr (mem_filter.mpr ⟨hx, decide_eq_true hx'⟩), rfl⟩
  have hattached := hall.attached
  have hflags := hall.flags
  rw [hrest] at hattached hflags
  have hsame : (pp'.clear slot).directive = pp'.directive ∧ (pp'.clear slot).macros = pp'.macros ∧
      (pp'.clear slot).allocated = pp'.allocated ∧
      (pp'.clear slot).hasMacroDefinition = pp'.hasMacroDefinition := by
    cases slot <;> exact ⟨rfl, rfl, rfl, rfl⟩
  obtain ⟨hdirective, hmacros, hallocated, hhas⟩ := hsame
  have herases : Erases pp (pp'.clear slot) := by
    refine ⟨hall.toSameRest.trans ?_, hallocated.trans hall.allocated, ?_⟩
    · cases slot <;> exact ⟨rfl, rfl, rfl, rfl, rfl⟩
    · rw [← hall.tracked]
      cases slot <;> rfl
  refine ⟨pp', ?_, ⟨hattached.of_eq hdirective hmacros hallocated, ?_, ?_, ?_⟩, ?_, herases⟩
  · unfold Preprocessor.removeMacrosVector
    rw [hpp.recorded slot hslot, ← map_reverse]
    exact hpp'
  · intro other hother
    rw [pp'.recorded_clear slot other hslot, hall.recorded other, hpp.recorded other hother]
    unfold History.ofSlot History.dropSlot
    rw [filter_filter]
    split
    · next heq =>
        simp [heq]
    · next hne =>
        congr 1
        refine filter_congr fun e _ => ?_
        by_cases he : e.slot = other
        · simp [he, hne]
        · simp [he]
  · rw [herases.cachingMode]
    exact hpp.cachingMode
  · rw [herases.leafModuleMacros]
    exact hpp.leafModuleMacros
  · intro hcorrect hstale II
    rw [hhas]
    exact hflags hcorrect hstale II

end Represents

/-- Remove the directives of some lists and empty them. -/
def Preprocessor.eraseSlots (pp : Preprocessor) (slots : List Slot) : Option Preprocessor :=
  slots.foldlM (fun (pp : Preprocessor) slot =>
    (pp.removeMacrosVector (pp.recorded slot)).map fun pp => pp.clear slot) pp

/-- The lists that `eraseMacros` removes. -/
def erasedSlots (fileEntries : List FileEntry) : List Slot :=
  fileEntries.map Slot.generated ++ [.need, .commandLine]

/-- Mark every watched identifier as undefined. -/
def Preprocessor.resetTracked (pp : Preprocessor) : Preprocessor :=
  { pp with
    commandLineMainIdentifiersIdentifiers := fun II =>
      (pp.commandLineMainIdentifiersIdentifiers II).map fun _ => macroUndefined }

theorem Preprocessor.eraseMacros_eq (pp : Preprocessor) (fileEntries : List FileEntry) :
    pp.eraseMacros fileEntries =
      (pp.eraseSlots (erasedSlots fileEntries)).map Preprocessor.resetTracked := by
  unfold eraseMacros eraseSlots erasedSlots
  rw [foldlM_append, foldlM_map]
  have hstep : (fun (pp : Preprocessor) fe => do
      let pp ← pp.removeMacrosVector (pp.generatedMacros fe)
      some { pp with generatedMacros := Function.update pp.generatedMacros fe [] }) =
        fun (pp : Preprocessor) fe =>
          (pp.removeMacrosVector (pp.recorded (.generated fe))).map fun pp =>
            pp.clear (.generated fe) := by
    funext pp fe
    exact Option.map_eq_bind.symm
  rw [hstep]
  cases fileEntries.foldlM (fun (pp : Preprocessor) fe =>
    (pp.removeMacrosVector (pp.recorded (.generated fe))).map fun pp =>
      pp.clear (.generated fe)) pp with
  | none => rfl
  | some pp =>
    simp only [Option.bind_eq_bind, Option.bind_some, foldlM_cons, foldlM_nil]
    change (pp.removeMacrosVector (pp.recorded .need)).bind _ = _
    cases pp.removeMacrosVector (pp.recorded .need) with
    | none => rfl
    | some pp =>
      simp only [Option.bind_some, Option.map_some]
      change ((pp.clear .need).removeMacrosVector
        ((pp.clear .need).recorded .commandLine)).bind _ = _
      cases (pp.clear .need).removeMacrosVector ((pp.clear .need).recorded .commandLine) with
      | none | some pp => rfl

theorem Represents.eraseSlots {pp : Preprocessor} (hpp : Represents pp h)
    {slots : List Slot} (hslots : ∀ slot ∈ slots, slot ≠ .unrecorded) :
    ∃ pp', pp.eraseSlots slots = some pp' ∧ Represents pp' (slots.foldl History.dropSlot h) ∧
      (FlagsCorrect pp h → h.NoneStaleIn slots →
        FlagsCorrect pp' (slots.foldl History.dropSlot h)) ∧ Erases pp pp' := by
  induction slots generalizing pp h with
  | nil => exact ⟨pp, rfl, hpp, fun hflags _ => hflags, .refl pp, rfl, rfl⟩
  | cons slot rest ih =>
    obtain ⟨middle, hmiddle, hrepresents, hflags, herases⟩ :=
      hpp.eraseSlot (hslots slot (mem_cons_self ..))
    obtain ⟨pp', hpp', hrepresents', hflags', herases'⟩ :=
      ih hrepresents fun other hother => hslots other (mem_cons_of_mem _ hother)
    refine ⟨pp', ?_, hrepresents', fun hcorrect hstale => ?_,
      herases.toSameRest.trans herases'.toSameRest, herases'.allocated.trans herases.allocated,
      herases'.tracked.trans herases.tracked⟩
    · unfold Preprocessor.eraseSlots
      rw [foldlM_cons, hmiddle]
      exact hpp'
    · exact hflags' (hflags hcorrect hstale.1) hstale.2

theorem History.foldl_dropSlot (slots : List Slot) (h : History) :
    slots.foldl History.dropSlot h = h.filter fun e => e.slot ∉ slots := by
  induction slots generalizing h with
  | nil => simp
  | cons slot rest ih =>
    rw [foldl_cons, ih, History.dropSlot, filter_filter]
    simp only [mem_cons, not_or, Bool.decide_and, Bool.and_comm]

theorem Represents.eraseMacros {pp : Preprocessor} (hpp : Represents pp h)
    (fileEntries : List FileEntry) :
    ∃ pp', pp.eraseMacros fileEntries = some pp' ∧
      Represents pp' (h.filter fun e => e.slot ∉ erasedSlots fileEntries) ∧
      (FlagsCorrect pp h → h.NoneStaleIn (erasedSlots fileEntries) →
        FlagsCorrect pp' (h.filter fun e => e.slot ∉ erasedSlots fileEntries)) ∧
      Preprocessor.SameRest pp pp' ∧ pp'.allocated = pp.allocated ∧
      pp'.commandLineMainIdentifiersIdentifiers = fun II =>
        (pp.commandLineMainIdentifiersIdentifiers II).map fun _ => macroUndefined := by
  have hslots : ∀ slot ∈ erasedSlots fileEntries, slot ≠ .unrecorded := by
    intro slot hslot
    rcases mem_append.mp hslot with hslot | hslot
    · obtain ⟨fe, -, rfl⟩ := List.mem_map.mp hslot
      exact Slot.noConfusion
    · intro heq
      subst heq
      simp at hslot
  obtain ⟨pp', hpp', hrepresents, hflags, herases⟩ := hpp.eraseSlots hslots
  rw [History.foldl_dropSlot] at hrepresents hflags
  refine ⟨pp'.resetTracked, ?_, ⟨hrepresents.toAttached.of_eq rfl rfl rfl, ?_,
    hrepresents.cachingMode, hrepresents.leafModuleMacros⟩, hflags,
    herases.toSameRest.trans ⟨rfl, rfl, rfl, rfl, rfl⟩, herases.allocated, ?_⟩
  · rw [pp.eraseMacros_eq, hpp']
    rfl
  · intro slot hslot
    rw [← hrepresents.recorded slot hslot]
    cases slot <;> rfl
  · rw [← herases.tracked]
    rfl

/-- The operations on the macro state: a directive is appended while some lexer is active, or
the macros of some files are erased. -/
inductive Operation where
  | append (lexer : Option PPLexer) (II : IdentifierInfo) (kind : MacroDirective.Kind)
      (location : SourceLocation)
  | eraseMacros (fileEntries : List FileEntry)

def Preprocessor.perform (pp : Preprocessor) : Operation → Option Preprocessor
  | .append lexer II kind location =>
    (pp.setLexer lexer).appendNewDirective II kind location
  | .eraseMacros fileEntries => pp.eraseMacros fileEntries

/-- Perform a sequence of operations. -/
def Preprocessor.run (pp : Preprocessor) (operations : List Operation) : Option Preprocessor :=
  operations.foldlM Preprocessor.perform pp

/-- What happened in a run: all directives that were appended, numbered in this order, and the
addresses of those that were removed. -/
structure Log where
  appended : History
  removed : List Addr

namespace Log

/-- The directives that were appended and not removed. -/
def remaining (log : Log) : History := log.appended.filter fun e => e.address ∉ log.removed

/-- The log after one more operation. -/
def perform (log : Log) : Operation → Log
  | .append lexer II kind location =>
    { log with
      appended := log.appended ++
        [⟨log.appended.length, II, kind, location, slotOf lexer II location⟩] }
  | .eraseMacros fileEntries =>
    { log with
      removed := log.removed ++
        (log.remaining.filter fun e => e.slot ∈ erasedSlots fileEntries).map Appended.address }

def ofRun (operations : List Operation) : Log := operations.foldl Log.perform ⟨[], []⟩

def NoneStale (log : Log) : Operation → Prop
  | .append .. => True
  | .eraseMacros fileEntries => log.remaining.NoneStaleIn (erasedSlots fileEntries)

/-- The entries are numbered. -/
structure Numbered (log : Log) : Prop where
  bound : ∀ e ∈ log.appended, e.address < log.appended.length
  removed : ∀ a ∈ log.removed, a < log.appended.length

theorem Numbered.perform {log : Log} (h : log.Numbered) (operation : Operation) :
    (log.perform operation).Numbered := by
  cases operation with
  | append lexer II kind location =>
    refine ⟨fun e he => ?_, fun a ha => ?_⟩
    · simp only [Log.perform, length_append, length_singleton]
      rcases mem_append.mp he with he | he
      · exact Nat.lt_succ_of_lt (h.bound e he)
      · rw [mem_singleton.mp he]
        exact Nat.lt_succ_self _
    · simp only [Log.perform, length_append, length_singleton]
      exact Nat.lt_succ_of_lt (h.removed a ha)
  | eraseMacros fileEntries =>
    refine ⟨h.bound, fun a ha => ?_⟩
    rcases mem_append.mp ha with ha | ha
    · exact h.removed a ha
    · obtain ⟨e, he, rfl⟩ := List.mem_map.mp ha
      exact h.bound e (mem_filter.mp (mem_filter.mp he).1).1

theorem remaining_append {log : Log} (h : log.Numbered) (lexer : Option PPLexer)
    (II : IdentifierInfo) (kind : MacroDirective.Kind) (location : SourceLocation) :
    (log.perform (.append lexer II kind location)).remaining = log.remaining ++
      [⟨log.appended.length, II, kind, location, slotOf lexer II location⟩] := by
  unfold remaining Log.perform
  rw [filter_append]
  congr 1
  refine filter_eq_self.mpr fun e he => decide_eq_true fun hmem => ?_
  rw [mem_singleton.mp he] at hmem
  exact Nat.lt_irrefl _ (h.removed _ hmem)

theorem remaining_eraseMacros {log : Log} (hnodup : (log.remaining.map Appended.address).Nodup)
    (fileEntries : List FileEntry) :
    (log.perform (.eraseMacros fileEntries)).remaining =
      log.remaining.filter fun e => e.slot ∉ erasedSlots fileEntries := by
  have hsplit : (log.perform (.eraseMacros fileEntries)).remaining =
      log.remaining.filter fun e => e.address ∉
        (log.remaining.filter fun e => e.slot ∈ erasedSlots fileEntries).map Appended.address := by
    conv_rhs => unfold remaining
    rw [filter_filter]
    unfold remaining Log.perform
    congr 1
    funext e
    simp only [mem_append, not_or, Bool.decide_and, Bool.and_comm]
    rfl
  rw [hsplit]
  refine filter_congr fun x hx => ?_
  rw [decide_eq_decide, not_iff_not, mem_map]
  constructor
  · rintro ⟨e, he, heq⟩
    obtain ⟨hmem, hslot⟩ := mem_filter.mp he
    rw [← inj_on_of_nodup_map hnodup hmem hx heq]
    exact of_decide_eq_true hslot
  · intro hslot
    exact ⟨x, mem_filter.mpr ⟨hx, decide_eq_true hslot⟩, rfl⟩

/-- No removal of a run is stale. -/
def NeverStale (operations : List Operation) : Prop :=
  ∀ before operation, before ++ [operation] <+: operations → (ofRun before).NoneStale operation

end Log

/-- The macro state of a run holds what remains of the log. -/
structure Holds (pp : Preprocessor) (log : Log) : Prop extends Represents pp log.remaining where
  numbered : log.Numbered
  allocated : pp.allocated = log.appended.length

namespace Holds

variable {pp : Preprocessor} {log : Log}

theorem withLexer (hpp : Holds pp log) (lexer : Option PPLexer) :
    Holds (pp.setLexer lexer) log :=
  ⟨⟨hpp.toAttached.of_eq rfl rfl rfl, fun slot hslot => by
      rw [← hpp.recorded slot hslot]
      cases slot <;> rfl, hpp.cachingMode, hpp.leafModuleMacros⟩, hpp.numbered, hpp.allocated⟩

theorem append (hpp : Holds pp log) (lexer : Option PPLexer) (II : IdentifierInfo)
    (kind : MacroDirective.Kind) (location : SourceLocation) :
    ∃ pp', pp.perform (.append lexer II kind location) = some pp' ∧
      Holds pp' (log.perform (.append lexer II kind location)) ∧
      (FlagsCorrect pp log.remaining →
        FlagsCorrect pp' (log.perform (.append lexer II kind location)).remaining) := by
  have hlexer := hpp.withLexer lexer
  obtain ⟨pp', hpp', happends⟩ :=
    hlexer.toAttached.appendNewDirective hlexer.cachingMode II kind location
  have hremaining : (log.perform (.append lexer II kind location)).remaining = log.remaining ++
      [(pp.setLexer lexer).nextEntry II kind location] := by
    rw [Log.remaining_append hpp.numbered, ← hpp.allocated]
    rfl
  refine ⟨pp', hpp', ⟨⟨?_, ?_, ?_, ?_⟩, hpp.numbered.perform _, ?_⟩, fun hflags => ?_⟩
  · rw [hremaining]
    exact happends.attached
  · rw [hremaining]
    exact happends.recorded hlexer.recorded
  · rw [happends.cachingMode]
    exact hpp.cachingMode
  · rw [happends.leafModuleMacros]
    exact hpp.leafModuleMacros
  · rw [happends.allocated]
    simp [Log.perform, Preprocessor.setLexer, hpp.allocated]
  · rw [hremaining]
    exact happends.flagsCorrect hlexer.leafModuleMacros hflags

theorem perform (hpp : Holds pp log) (operation : Operation) :
    ∃ pp', pp.perform operation = some pp' ∧ Holds pp' (log.perform operation) ∧
      (FlagsCorrect pp log.remaining → log.NoneStale operation →
        FlagsCorrect pp' (log.perform operation).remaining) := by
  cases operation with
  | append lexer II kind location =>
    obtain ⟨pp', hpp', hholds, hflags⟩ := hpp.append lexer II kind location
    exact ⟨pp', hpp', hholds, fun hcorrect _ => hflags hcorrect⟩
  | eraseMacros fileEntries =>
    obtain ⟨pp', hpp', hrepresents, hflags, -, hallocated, -⟩ :=
      hpp.toRepresents.eraseMacros fileEntries
    rw [← Log.remaining_eraseMacros hpp.nodup] at hrepresents hflags
    exact ⟨pp', hpp', ⟨hrepresents, hpp.numbered.perform _, hallocated.trans hpp.allocated⟩, hflags⟩

end Holds

theorem holds_start (isUserFile : FileEntry → Bool) (watched : List IdentifierInfo) :
    Holds (.start isUserFile watched) (.ofRun []) := by
  refine ⟨⟨⟨fun _ => .nil, ?_, nodup_nil, ?_⟩, fun slot _ => ?_, rfl, fun _ => rfl⟩, ⟨?_, ?_⟩, rfl⟩
  · intro e he
    cases he
  · intro e he
    cases he
  · cases slot <;> rfl
  · intro e he
    cases he
  · intro a ha
    cases ha

/-- Every run of operations returns, and holds the append history without the removed
directives. The flags are correct when no removal was stale. -/
theorem run_holds (isUserFile : FileEntry → Bool) (watched : List IdentifierInfo)
    (operations : List Operation) :
    ∃ pp, (Preprocessor.start isUserFile watched).run operations = some pp ∧
      Holds pp (.ofRun operations) ∧
      (Log.NeverStale operations → FlagsCorrect pp (Log.ofRun operations).remaining) := by
  induction operations using List.reverseRecOn with
  | nil => exact ⟨_, rfl, holds_start isUserFile watched, fun _ _ => rfl⟩
  | append_singleton before operation ih =>
    obtain ⟨middle, hmiddle, hholds, hflags⟩ := ih
    obtain ⟨pp, hpp, hholds', hflags'⟩ := hholds.perform operation
    have hlog : Log.ofRun (before ++ [operation]) = (Log.ofRun before).perform operation := by
      unfold Log.ofRun
      rw [foldl_append]
      rfl
    rw [hlog]
    refine ⟨pp, ?_, hholds',
      fun hstale => hflags' (hflags fun before' operation' hearlier => ?_) ?_⟩
    · unfold Preprocessor.run at hmiddle ⊢
      rw [foldlM_append, hmiddle]
      simpa using hpp
    · exact hstale before' operation' (hearlier.trans (prefix_append _ _))
    · exact hstale before operation prefix_rfl

/-- Whether the latest directive of an identifier exists and leaves it defined. -/
def Preprocessor.latestIsDefined (pp : Preprocessor) (II : IdentifierInfo) : Option Bool :=
  match pp.macros II with
  | none => some false
  | some a => MacroDirective.isDefined pp.directive pp.fuel a

theorem Attached.latestIsDefined_eq {pp : Preprocessor} (hpp : Attached pp h)
    (II : IdentifierInfo) :
    pp.latestIsDefined II = some (History.isDefined (h.chain II)) := by
  have hlinked := hpp.linked II
  have hfuel := hpp.length_cells_lt II
  have hsubset : h.chain II ⊆ h := fun e he => (History.mem_chain.mp he).1
  have hdefined := hpp.definedIn_eq hsubset
  unfold History.cells at hlinked hfuel
  unfold Preprocessor.latestIsDefined
  cases hchain : h.chain II with
  | nil =>
    rw [hchain] at hlinked
    rw [show pp.macros II = none from hlinked.start_eq]
    rfl
  | cons e rest =>
    rw [hchain, map_cons] at hlinked hfuel
    rw [hchain, map_cons] at hdefined
    have hmacros : pp.macros II = some e.address := hlinked.start_eq
    rw [hmacros] at hlinked ⊢
    rw [← hdefined]
    exact MacroDirective.isDefined_eq hlinked hfuel

/-- Every chain is the append history of its identifier without the removed directives, in the
same order, and every flag says whether the latest remaining directive exists and is defined. -/
structure Intact (pp : Preprocessor) (log : Log) : Prop where
  linked : ∀ II, Linked pp.previous (pp.macros II) (log.remaining.cells II)
  content : ∀ e ∈ log.remaining, (pp.directive e.address).kind = e.kind ∧
    (pp.directive e.address).location = e.location
  flags : ∀ II, pp.latestIsDefined II = some (pp.hasMacroDefinition II)

/-- In a run without stale removals every operation returns, and the macro state is intact in
every state that is reached. -/
theorem run_intact (isUserFile : FileEntry → Bool) (watched : List IdentifierInfo)
    {operations before : List Operation} (hstale : Log.NeverStale operations)
    (hbefore : before <+: operations) :
    ∃ pp, (Preprocessor.start isUserFile watched).run before = some pp ∧
      Intact pp (.ofRun before) := by
  obtain ⟨pp, hpp, hholds, hflags⟩ := run_holds isUserFile watched before
  refine ⟨pp, hpp, hholds.linked, hholds.content, fun II => ?_⟩
  rw [hholds.toAttached.latestIsDefined_eq II,
    hflags (fun before' operation hearlier => hstale before' operation (hearlier.trans hbefore)) II]

/-- `#define X 1` in `a.h`, and a visibility pragma for `X` in `b.h`, before the macros of `a.h`
are erased. -/
def hiddenRemoval : List Operation :=
  [.append (some ⟨false, some "a.h"⟩) "X" (.define ⟨false, [], "1"⟩) ⟨some "a.h", some "a.h"⟩,
    .append (some ⟨false, some "b.h"⟩) "X" (.visibility false) ⟨some "b.h", some "b.h"⟩,
    .eraseMacros ["a.h"]]

/-- Only the visibility directive is left, but the flag still says that `X` is defined. -/
theorem hiddenRemoval_not_intact :
    ¬ ∃ pp, (Preprocessor.start (fun _ => true) []).run hiddenRemoval = some pp ∧
      Intact pp (.ofRun hiddenRemoval) := by
  rintro ⟨pp, hpp, hintact⟩
  have hflag : ((Preprocessor.start (fun _ => true) []).run hiddenRemoval).map
      (fun pp => (pp.latestIsDefined "X", pp.hasMacroDefinition "X")) =
        some (some false, true) := by
    decide
  rw [hpp, Option.map_some, hintact.flags "X"] at hflag
  simp at hflag

/-- Defining a macro in a file and erasing the macros of this file. -/
theorem run_intact_defineErase :
    ∃ pp, (Preprocessor.start (fun _ => true) []).run
        [.append (some ⟨false, some "a.h"⟩) "X" (.define ⟨false, [], "1"⟩)
          ⟨some "a.h", some "a.h"⟩, .eraseMacros ["a.h"]] = some pp ∧
      Intact pp (.ofRun [.append (some ⟨false, some "a.h"⟩) "X" (.define ⟨false, [], "1"⟩)
          ⟨some "a.h", some "a.h"⟩, .eraseMacros ["a.h"]]) := by
  refine run_intact _ _ (fun before operation hearlier => ?_) prefix_rfl
  cases before with
  | nil =>
    obtain ⟨rest, hrest⟩ := hearlier
    cases hrest
    trivial
  | cons first before =>
    obtain ⟨rest, hrest⟩ := hearlier
    cases before with
    | nil =>
      cases hrest
      refine ⟨⟨?_, trivial⟩, trivial, trivial, trivial⟩
      rintro ⟨later, earlier, hsplit, hlater, -⟩
      have hlength : 1 = (later ++ _ :: earlier).length := congrArg List.length hsplit
      have hpositive := length_pos_iff.mpr hlater
      rw [length_append, length_cons] at hlength
      omega
    | cons second before => simp at hrest

end Zapcc.Lex
