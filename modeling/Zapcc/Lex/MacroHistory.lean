import Zapcc.Lex.Preprocessor

/-!
# The macro state as a history of directives

`History` is the abstract view of the macro state: the directives that are still attached, in
the order in which they were appended. `Attached` connects it with the links in the heap, and
`Recorded` with the lists of directives per file. `appendNewDirective_eq`
adds an entry to the history, and `Attached.removeMacro` takes one out.
-/

namespace Zapcc.Lex

open LinkedList StringRef List Function

/-- The list in which `macroDefined` records a directive. -/
inductive Slot where
  | generated (fe : FileEntry)
  | need
  | commandLine
  | unrecorded
  deriving DecidableEq

/-- Where a directive is recorded that the given lexer reads. -/
def slotOf (lexer : Option PPLexer) (II : IdentifierInfo) (location : SourceLocation) : Slot :=
  match lexer with
  | none => .unrecorded
  | some lexer =>
    if lexer.isPredefines then
      if location.presumedFilename = some "<command line>" then .commandLine else .unrecorded
    else
      match lexer.fileEntry with
      | none => .unrecorded
      | some fe => if startswith II "__need_" then .need else .generated fe

/-- A directive that was appended. -/
structure Appended where
  address : Addr
  identifier : IdentifierInfo
  kind : MacroDirective.Kind
  location : SourceLocation
  slot : Slot
  deriving DecidableEq

/-- The attached directives, in the order in which they were appended. -/
abbrev History := List Appended

namespace History

/-- The directives of an identifier, the latest one first. -/
def chain (h : History) (II : IdentifierInfo) : List Appended :=
  (h.filter fun e => e.identifier = II).reverse

/-- The addresses of the directives of an identifier, the latest one first. -/
def cells (h : History) (II : IdentifierInfo) : List Addr := (h.chain II).map Appended.address

/-- The history without the directive at `a`. -/
def erase (h : History) (a : Addr) : History := h.filter fun e => e.address ≠ a

/-- The directives that are recorded in a list. -/
def ofSlot (h : History) (slot : Slot) : History := h.filter fun e => e.slot = slot

/-- The first directive of a chain that is not a visibility directive is a definition. -/
def isDefined (chain : List Appended) : Bool :=
  match chain.find? fun e => !e.kind.isVisibility with
  | some e => e.kind.isDefine
  | none => false

/-- The macro of the first definition in a chain. -/
def lastInfo (chain : List Appended) : Option MacroInfo :=
  chain.findSome? fun e => e.kind.getInfo

variable {II : IdentifierInfo} {e : Appended}

theorem mem_chain {h : History} :
    e ∈ h.chain II ↔ e ∈ h ∧ e.identifier = II := by
  simp [chain]

theorem chain_append_self (h : History)
    (heq : e.identifier = II) : chain (h ++ [e]) II = e :: h.chain II := by
  simp [chain, heq]

theorem chain_append_of_ne (h : History) (e : Appended)
    (hne : e.identifier ≠ II) : chain (h ++ [e]) II = h.chain II := by
  simp [chain, hne]

theorem chain_erase (h : History) (a : Addr) (II : IdentifierInfo) :
    (h.erase a).chain II = (h.chain II).filter fun e => e.address ≠ a := by
  simp only [chain, erase, filter_reverse, filter_filter]
  congr 2
  funext e
  exact Bool.and_comm _ _

end History

namespace Preprocessor

/-- The contents of a list of recorded directives. -/
def recorded (pp : Preprocessor) : Slot → List (IdentifierInfo × Addr)
  | .generated fe => pp.generatedMacros fe
  | .need => pp.needMacros
  | .commandLine => pp.generatedMacrosCommandLine
  | .unrecorded => []

end Preprocessor

/-- The heap holds exactly the directives of the history, linked in their order. -/
structure Attached (pp : Preprocessor) (h : History) : Prop where
  linked : ∀ II, Linked pp.previous (pp.macros II) (h.cells II)
  content : ∀ e ∈ h, (pp.directive e.address).kind = e.kind ∧
    (pp.directive e.address).location = e.location
  nodup : (h.map Appended.address).Nodup
  bound : ∀ e ∈ h, e.address < pp.allocated

/-- The lists of recorded directives hold the directives of the history. -/
def Recorded (pp : Preprocessor) (h : History) : Prop :=
  ∀ slot, slot ≠ .unrecorded →
    pp.recorded slot = (h.ofSlot slot).map fun e => (e.identifier, e.address)

/-- The flag of every identifier says whether its latest directive leaves it defined. -/
def FlagsCorrect (pp : Preprocessor) (h : History) : Prop :=
  ∀ II, pp.hasMacroDefinition II = History.isDefined (h.chain II)

namespace Preprocessor

theorem previous_setPrevious (pp : Preprocessor) (a : Addr) (target : Option Addr) :
    (pp.setPrevious a target).previous = update pp.previous a target := by
  funext b
  unfold previous setPrevious
  by_cases hb : b = a
  · subst hb
    simp
  · simp [update_of_ne hb]

theorem directive_setPrevious (pp : Preprocessor) (a : Addr) (target : Option Addr) (b : Addr) :
    ((pp.setPrevious a target).directive b).kind = (pp.directive b).kind ∧
      ((pp.setPrevious a target).directive b).location = (pp.directive b).location := by
  unfold setPrevious
  by_cases hb : b = a
  · subst hb
    simp
  · simp [update_of_ne hb]

end Preprocessor

namespace Attached

variable {pp : Preprocessor} {h : History}

theorem nodup_cells (hpp : Attached pp h) (II : IdentifierInfo) : (h.cells II).Nodup := by
  unfold History.cells History.chain
  rw [map_reverse, nodup_reverse]
  exact hpp.nodup.sublist (filter_sublist.map _)

theorem length_cells_lt (hpp : Attached pp h) (II : IdentifierInfo) :
    (h.cells II).length < pp.fuel := by
  have hsubset : h.cells II ⊆ List.range pp.allocated := by
    intro a ha
    obtain ⟨e, he, rfl⟩ := List.mem_map.mp ha
    exact mem_range.mpr (hpp.bound e (History.mem_chain.mp he).1)
  have hle := (hpp.nodup_cells II).length_le_of_subset hsubset
  rw [length_range] at hle
  exact Nat.lt_succ_of_le hle

theorem eq_of_address (hpp : Attached pp h) {e other : Appended} (he : e ∈ h) (hother : other ∈ h)
    (heq : e.address = other.address) : e = other :=
  inj_on_of_nodup_map hpp.nodup he hother heq

theorem definedIn_eq (hpp : Attached pp h) {chain : List Appended} (hsubset : chain ⊆ h) :
    MacroDirective.definedIn pp.directive (chain.map Appended.address) =
      History.isDefined chain := by
  induction chain with
  | nil => rfl
  | cons e rest ih =>
    have hkind := (hpp.content e (hsubset (mem_cons_self ..))).1
    have hrest := ih fun x hx => hsubset (mem_cons_of_mem _ hx)
    unfold MacroDirective.definedIn History.isDefined at hrest ⊢
    rw [map_cons, find?_cons, find?_cons, hkind]
    cases e.kind.isVisibility with
    | false => simp only [Bool.not_false, hkind]
    | true => simpa only [Bool.not_true] using hrest

theorem lastInfo_eq (hpp : Attached pp h) {chain : List Appended} (hsubset : chain ⊆ h) :
    MacroDirective.lastInfo pp.directive (chain.map Appended.address) = History.lastInfo chain := by
  induction chain with
  | nil => rfl
  | cons e rest ih =>
    have hkind := (hpp.content e (hsubset (mem_cons_self ..))).1
    have hrest := ih fun x hx => hsubset (mem_cons_of_mem _ hx)
    unfold MacroDirective.lastInfo History.lastInfo at hrest ⊢
    rw [map_cons, findSome?_cons, findSome?_cons, hrest, hkind]

theorem of_eq (hpp : Attached pp h) {pp' : Preprocessor} (hdirective : pp'.directive = pp.directive)
    (hmacros : pp'.macros = pp.macros) (hallocated : pp'.allocated = pp.allocated) :
    Attached pp' h := by
  refine ⟨fun II => ?_, fun e he => ?_, hpp.nodup, fun e he => ?_⟩
  · unfold Preprocessor.previous
    rw [hdirective, hmacros]
    exact hpp.linked II
  · rw [hdirective]
    exact hpp.content e he
  · rw [hallocated]
    exact hpp.bound e he

theorem push (hpp : Attached pp h) {pp' : Preprocessor}
    (haddress : e.address = pp.allocated)
    (hprevious : pp'.previous = update pp.previous pp.allocated (pp.macros e.identifier))
    (hmacros : pp'.macros = update pp.macros e.identifier (some pp.allocated))
    (hallocated : pp'.allocated = pp.allocated + 1)
    (hself : (pp'.directive pp.allocated).kind = e.kind ∧
      (pp'.directive pp.allocated).location = e.location)
    (hother : ∀ a, a ≠ pp.allocated → (pp'.directive a).kind = (pp.directive a).kind ∧
      (pp'.directive a).location = (pp.directive a).location) : Attached pp' (h ++ [e]) := by
  have hfresh : ∀ II, pp.allocated ∉ h.cells II := by
    intro II hmem
    obtain ⟨x, hx, heq⟩ := List.mem_map.mp hmem
    exact Nat.ne_of_lt (hpp.bound x (History.mem_chain.mp hx).1) heq
  refine ⟨fun II => ?_, fun x hx => ?_, ?_, fun x hx => ?_⟩
  · rw [hprevious, hmacros]
    unfold History.cells
    by_cases hII : e.identifier = II
    · rw [hII, update_self, History.chain_append_self h hII, map_cons, haddress]
      exact (hpp.linked II).push (hfresh II)
    · rw [update_of_ne (Ne.symm hII), History.chain_append_of_ne h e hII]
      exact (hpp.linked II).update_of_notMem (hfresh II)
  · rcases mem_append.mp hx with hx | hx
    · have hne : x.address ≠ pp.allocated := Nat.ne_of_lt (hpp.bound x hx)
      rw [(hother _ hne).1, (hother _ hne).2]
      exact hpp.content x hx
    · rw [mem_singleton.mp hx, haddress]
      exact hself
  · rw [map_append, map_singleton, nodup_append]
    refine ⟨hpp.nodup, nodup_singleton _, ?_⟩
    intro a ha b hb
    obtain ⟨x, hx, rfl⟩ := List.mem_map.mp ha
    rw [mem_singleton.mp hb, haddress]
    exact Nat.ne_of_lt (hpp.bound x hx)
  · rw [hallocated]
    rcases mem_append.mp hx with hx | hx
    · exact Nat.lt_succ_of_lt (hpp.bound x hx)
    · rw [mem_singleton.mp hx, haddress]
      exact Nat.lt_succ_self _

end Attached

namespace Preprocessor

/-- The tracked texts after a directive of `II` that belongs to the macro `mi`. -/
def trackedAfter (tracked : IdentifierInfo → Option String) (II : IdentifierInfo) :
    Option MacroInfo → IdentifierInfo → Option String
  | none => tracked
  | some mi =>
    if (tracked II).isSome then update tracked II (some (getMacroText mi)) else tracked

theorem trackedAfter_of_ne (tracked : IdentifierInfo → Option String) {II J : IdentifierInfo}
    (hne : J ≠ II) (info : Option MacroInfo) : trackedAfter tracked II info J = tracked J := by
  cases info with
  | none => rfl
  | some mi =>
    simp only [trackedAfter]
    split
    · exact update_of_ne hne _ _
    · rfl

theorem trackedAfter_self {tracked : IdentifierInfo → Option String}
    (hwatched : (tracked II).isSome) (mi : MacroInfo) :
    trackedAfter tracked II (some mi) II = some (getMacroText mi) := by
  simp only [trackedAfter, if_pos hwatched, update_self]

/-- Two states that agree in what no operation on directives writes. -/
structure SameRest (pp pp' : Preprocessor) : Prop where
  cachingMode : pp'.cachingMode = pp.cachingMode
  leafModuleMacros : pp'.leafModuleMacros = pp.leafModuleMacros
  includes : pp'.includes = pp.includes
  includeesMap : pp'.includeesMap = pp.includeesMap
  filesIdentifiersValues : pp'.filesIdentifiersValues = pp.filesIdentifiersValues

theorem SameRest.refl (pp : Preprocessor) : SameRest pp pp := ⟨rfl, rfl, rfl, rfl, rfl⟩

theorem SameRest.trans {pp pp' pp'' : Preprocessor} (h : SameRest pp pp')
    (h' : SameRest pp' pp'') : SameRest pp pp'' :=
  ⟨h'.1.trans h.1, h'.2.trans h.2, h'.3.trans h.3, h'.4.trans h.4, h'.5.trans h.5⟩

/-- Two states that differ at most in what `macroDefined` writes. -/
structure SameDirectives (pp pp' : Preprocessor) : Prop extends SameRest pp pp' where
  directive : pp'.directive = pp.directive
  allocated : pp'.allocated = pp.allocated
  macros : pp'.macros = pp.macros
  hasMacroDefinition : pp'.hasMacroDefinition = pp.hasMacroDefinition

theorem SameDirectives.refl (pp : Preprocessor) : SameDirectives pp pp :=
  ⟨.refl pp, rfl, rfl, rfl, rfl⟩

theorem recordMacro_frame (pp : Preprocessor) (lexer : PPLexer) (II : IdentifierInfo) (md : Addr) :
    SameDirectives pp (pp.recordMacro lexer II md) ∧
      (pp.recordMacro lexer II md).commandLineMainIdentifiersIdentifiers =
        pp.commandLineMainIdentifiersIdentifiers := by
  unfold recordMacro
  split
  · split
    · exact ⟨⟨⟨rfl, rfl, rfl, rfl, rfl⟩, rfl, rfl, rfl, rfl⟩, rfl⟩
    · exact ⟨.refl pp, rfl⟩
  · split
    · exact ⟨.refl pp, rfl⟩
    · split <;> split <;> exact ⟨⟨⟨rfl, rfl, rfl, rfl, rfl⟩, rfl, rfl, rfl, rfl⟩, rfl⟩

theorem recorded_recordMacro (pp : Preprocessor) (lexer : PPLexer) (II : IdentifierInfo)
    (md : Addr) (slot : Slot) (hslot : slot ≠ .unrecorded) :
    (pp.recordMacro lexer II md).recorded slot = pp.recorded slot ++
        if slotOf (some lexer) II (pp.directive md).location = slot then [(II, md)] else [] := by
  unfold recordMacro slotOf
  by_cases hpredefines : lexer.isPredefines = true
  · simp only [hpredefines, if_true]
    by_cases hname : (pp.directive md).location.presumedFilename = some "<command line>"
    · simp only [hname, if_true]
      cases slot <;> simp [recorded]
    · simp only [hname, if_false]
      rw [if_neg hslot.symm, append_nil]
  · simp only [hpredefines, Bool.false_eq_true, if_false]
    cases lexer.fileEntry with
    | none => simp [hslot.symm]
    | some fe =>
      by_cases hneed : startswith II "__need_" = true
      · simp only [hneed, if_true]
        cases slot with
        | generated other | need | commandLine => split <;> simp [recorded]
        | unrecorded => exact absurd rfl hslot
      · simp only [hneed, Bool.false_eq_true, if_false]
        cases slot with
        | generated other =>
          by_cases hother : other = fe
          · subst hother
            split <;> simp [recorded]
          · have hne : ¬ fe = other := Ne.symm hother
            split <;> simp [recorded, update_of_ne hother, hne]
        | need | commandLine => split <;> simp [recorded]
        | unrecorded => exact absurd rfl hslot

theorem trackMacro_eq (pp : Preprocessor) (II : IdentifierInfo) (mi : MacroInfo) :
    pp.trackMacro II mi = { pp with
      commandLineMainIdentifiersIdentifiers :=
        trackedAfter pp.commandLineMainIdentifiersIdentifiers II (some mi) } := by
  unfold trackMacro trackedAfter
  split <;> rfl

theorem macroDefined_eq (pp : Preprocessor) (II : IdentifierInfo) (md : Addr)
    {info : Option MacroInfo}
    (hinfo : MacroDirective.getMacroInfo pp.directive pp.fuel md = some info) :
    ∃ pp', pp.macroDefined II md = some pp' ∧ SameDirectives pp pp' ∧
      pp'.commandLineMainIdentifiersIdentifiers = (if pp.curPPLexer.isSome then
          trackedAfter pp.commandLineMainIdentifiersIdentifiers II info
        else pp.commandLineMainIdentifiersIdentifiers) ∧
      ∀ slot, slot ≠ .unrecorded → pp'.recorded slot = pp.recorded slot ++
        if slotOf pp.curPPLexer II (pp.directive md).location = slot then [(II, md)] else [] := by
  unfold macroDefined
  cases hlexer : pp.curPPLexer with
  | none =>
    refine ⟨pp, rfl, .refl pp, rfl, fun slot hslot => ?_⟩
    rw [slotOf, if_neg hslot.symm, append_nil]
  | some lexer =>
    obtain ⟨hframe, htracked⟩ := pp.recordMacro_frame lexer II md
    have hloop : MacroDirective.getMacroInfo (pp.recordMacro lexer II md).directive
        (pp.recordMacro lexer II md).fuel md = some info := by
      unfold fuel
      rw [hframe.directive, hframe.allocated]
      exact hinfo
    have hrecorded := pp.recorded_recordMacro lexer II md
    simp only [hloop, Option.bind_eq_bind, Option.bind_some]
    cases info with
    | none => exact ⟨_, rfl, hframe, htracked, hrecorded⟩
    | some mi =>
      refine ⟨_, rfl, ?_, ?_, fun slot hslot => ?_⟩
      · rw [trackMacro_eq]
        exact ⟨hframe.toSameRest.trans ⟨rfl, rfl, rfl, rfl, rfl⟩, hframe.2, hframe.3,
          hframe.4, hframe.5⟩
      · rw [trackMacro_eq, htracked]
        rfl
      · rw [trackMacro_eq, ← hrecorded slot hslot]
        cases slot <;> rfl

end Preprocessor

/-- What appending the directive `e` does to a state. -/
structure Appends (pp : Preprocessor) (h : History) (e : Appended) (pp' : Preprocessor) :
    Prop extends Preprocessor.SameRest pp pp' where
  attached : Attached pp' (h ++ [e])
  recorded : Recorded pp h → Recorded pp' (h ++ [e])
  flags : pp'.hasMacroDefinition = update pp.hasMacroDefinition e.identifier
    (History.isDefined (e :: h.chain e.identifier) || pp.leafModuleMacros e.identifier)
  tracked : pp'.commandLineMainIdentifiersIdentifiers =
    if pp.curPPLexer.isSome then
      Preprocessor.trackedAfter pp.commandLineMainIdentifiersIdentifiers e.identifier
        (History.lastInfo (e :: h.chain e.identifier))
    else pp.commandLineMainIdentifiersIdentifiers
  allocated : pp'.allocated = pp.allocated + 1

theorem Appends.flagsCorrect {pp pp' : Preprocessor} {h : History}
    (happends : Appends pp h e pp') (hleaf : ∀ II, pp.leafModuleMacros II = false)
    (hflags : FlagsCorrect pp h) : FlagsCorrect pp' (h ++ [e]) := by
  intro II
  rw [happends.flags]
  by_cases hII : II = e.identifier
  · rw [hII, update_self, History.chain_append_self h rfl, hleaf, Bool.or_false]
  · rw [update_of_ne hII, History.chain_append_of_ne h e (Ne.symm hII)]
    exact hflags II

/-- The entry that the next directive gets in the history. -/
def Preprocessor.nextEntry (pp : Preprocessor) (II : IdentifierInfo) (kind : MacroDirective.Kind)
    (location : SourceLocation) : Appended :=
  ⟨pp.allocated, II, kind, location, slotOf pp.curPPLexer II location⟩

theorem Attached.setLatest {pp : Preprocessor} {h : History} (hpp : Attached pp h)
    (II : IdentifierInfo) (kind : MacroDirective.Kind) (location : SourceLocation) :
    Attached ((pp.allocateMacroDirective kind location).1.setLatest II pp.allocated)
      (h ++ [pp.nextEntry II kind location]) := by
  have hself := Preprocessor.directive_setPrevious (pp.allocateMacroDirective kind location).1
    pp.allocated (pp.macros II)
  refine hpp.push rfl ?_ rfl rfl ?_ ?_
  · show (Preprocessor.setPrevious _ _ _).previous = _
    rw [Preprocessor.previous_setPrevious]
    funext a
    by_cases ha : a = pp.allocated
    · subst ha
      rw [update_self, update_self]
      rfl
    · simp only [Preprocessor.previous, Preprocessor.allocateMacroDirective, update_of_ne ha]
  · have hallocated := hself pp.allocated
    simp only [Preprocessor.allocateMacroDirective, update_self] at hallocated
    exact hallocated
  · intro a ha
    have hother := hself a
    simp only [Preprocessor.allocateMacroDirective, update_of_ne ha] at hother
    exact hother

theorem Attached.setLatest_loops {pp : Preprocessor} {h : History} (hpp : Attached pp h)
    (II : IdentifierInfo) (kind : MacroDirective.Kind) (location : SourceLocation)
    {latest : Preprocessor} (hlatest : latest =
      (pp.allocateMacroDirective kind location).1.setLatest II pp.allocated) :
    MacroDirective.isDefined latest.directive latest.fuel pp.allocated =
        some (History.isDefined (pp.nextEntry II kind location :: h.chain II)) ∧
      MacroDirective.getMacroInfo latest.directive latest.fuel pp.allocated =
        some (History.lastInfo (pp.nextEntry II kind location :: h.chain II)) := by
  have hattached : Attached latest (h ++ [pp.nextEntry II kind location]) := by
    rw [hlatest]
    exact hpp.setLatest II kind location
  have hchain : History.chain (h ++ [pp.nextEntry II kind location]) II =
      pp.nextEntry II kind location :: h.chain II :=
    History.chain_append_self h (show (pp.nextEntry II kind location).identifier = II from rfl)
  have hsubset : pp.nextEntry II kind location :: h.chain II ⊆
      h ++ [pp.nextEntry II kind location] := by
    rw [← hchain]
    exact fun e he => (History.mem_chain.mp he).1
  have hlinked := hattached.linked II
  have hfuel := hattached.length_cells_lt II
  rw [show latest.macros II = some pp.allocated by rw [hlatest]; exact update_self ..]
    at hlinked
  unfold History.cells at hlinked hfuel
  rw [hchain] at hlinked hfuel
  rw [← hattached.definedIn_eq hsubset, ← hattached.lastInfo_eq hsubset]
  exact ⟨MacroDirective.isDefined_eq hlinked hfuel, MacroDirective.getMacroInfo_eq hlinked hfuel⟩

theorem Attached.appendNewDirective {pp : Preprocessor} {h : History} (hpp : Attached pp h)
    (hcaching : pp.cachingMode = true) (II : IdentifierInfo) (kind : MacroDirective.Kind)
    (location : SourceLocation) :
    ∃ pp', pp.appendNewDirective II kind location = some pp' ∧
      Appends pp h (pp.nextEntry II kind location) pp' := by
  obtain ⟨latest, hlatest⟩ : ∃ latest, latest =
      (pp.allocateMacroDirective kind location).1.setLatest II pp.allocated := ⟨_, rfl⟩
  obtain ⟨hdefined, hinfo⟩ := hpp.setLatest_loops II kind location hlatest
  have hunfold : pp.appendNewDirective II kind location =
      (MacroDirective.isDefined latest.directive latest.fuel pp.allocated).bind fun isDefined =>
        if pp.cachingMode then
          (latest.setHasMacroDefinition II (isDefined || pp.leafModuleMacros II)).macroDefined II
            pp.allocated
        else some (latest.setHasMacroDefinition II (isDefined || pp.leafModuleMacros II)) := by
    have hflag : ∀ b c : Bool, (b || c) = if !b && !c then false else true := by decide
    simp only [hlatest, hflag]
    rfl
  rw [hunfold, hdefined, Option.bind_some, if_pos hcaching]
  obtain ⟨pp', heq, hsame, htracked, hrecorded⟩ := (latest.setHasMacroDefinition II
    (History.isDefined (pp.nextEntry II kind location :: h.chain II) ||
      pp.leafModuleMacros II)).macroDefined_eq II pp.allocated hinfo
  have hattached : Attached latest (h ++ [pp.nextEntry II kind location]) := by
    rw [hlatest]
    exact hpp.setLatest II kind location
  have hrest : ∀ value, Preprocessor.SameRest pp (latest.setHasMacroDefinition II value) := by
    intro value
    rw [hlatest]
    exact ⟨rfl, rfl, rfl, rfl, rfl⟩
  refine ⟨pp', heq, (hrest _).trans hsame.toSameRest,
    hattached.of_eq hsame.directive hsame.macros hsame.allocated, ?_, ?_, ?_, ?_⟩
  · intro hlists slot hslot
    have hlocation : (latest.directive pp.allocated).location = location :=
      (hattached.content (pp.nextEntry II kind location) (by simp)).2
    have hlexer : latest.curPPLexer = pp.curPPLexer := by
      rw [hlatest]
      rfl
    have hbefore : ∀ value, (latest.setHasMacroDefinition II value).recorded slot =
        pp.recorded slot := by
      intro value
      rw [hlatest]
      cases slot <;> rfl
    rw [hrecorded slot hslot, hbefore, hlists slot hslot]
    change _ ++ (if slotOf latest.curPPLexer II (latest.directive pp.allocated).location = slot
      then _ else _) = _
    rw [hlexer, hlocation]
    unfold History.ofSlot
    by_cases heq : slotOf pp.curPPLexer II location = slot
    · simp [heq, Preprocessor.nextEntry]
    · simp [heq, Preprocessor.nextEntry]
  · rw [hsame.hasMacroDefinition, hlatest]
    rfl
  · rw [htracked, hlatest]
    rfl
  · rw [hsame.allocated, hlatest]
    rfl

/-- What removing the directive `e` does to a state. Only the removal of a latest directive
refreshes the flag. -/
structure Removes (pp : Preprocessor) (h : History) (e : Appended) (pp' : Preprocessor) :
    Prop extends Preprocessor.SameRest pp pp' where
  attached : Attached pp' (h.erase e.address)
  flags : ∀ II, pp'.hasMacroDefinition II =
    if (h.chain II).head? = some e then History.isDefined ((h.erase e.address).chain II)
    else pp.hasMacroDefinition II
  allocated : pp'.allocated = pp.allocated
  recorded : ∀ slot, pp'.recorded slot = pp.recorded slot
  tracked : pp'.commandLineMainIdentifiersIdentifiers = pp.commandLineMainIdentifiersIdentifiers

namespace Attached

variable {pp : Preprocessor} {h : History}

theorem chain_split (hpp : Attached pp h) (he : e ∈ h) :
    ∃ later earlier, h.chain e.identifier = later ++ e :: earlier ∧
      (h.erase e.address).chain e.identifier = later ++ earlier := by
  obtain ⟨later, earlier, hsplit⟩ :=
    append_of_mem (History.mem_chain.mpr ⟨he, rfl⟩ : e ∈ h.chain e.identifier)
  refine ⟨later, earlier, hsplit, ?_⟩
  have hnodup := hpp.nodup_cells e.identifier
  unfold History.cells at hnodup
  rw [hsplit, map_append, map_cons, nodup_middle, nodup_cons] at hnodup
  rw [History.chain_erase, hsplit, filter_append, filter_cons_of_neg (by simp)]
  have hkeep : ∀ part : List Appended, (∀ x ∈ part, x ∈ later ++ earlier) →
      part.filter (fun x => decide (x.address ≠ e.address)) = part := by
    intro part hpart
    refine filter_eq_self.mpr fun x hx => decide_eq_true ?_
    intro heq
    refine hnodup.1 ?_
    rw [← map_append, ← heq]
    exact mem_map_of_mem (hpart x hx)
  rw [hkeep later fun x hx => mem_append_left _ hx, hkeep earlier fun x hx => mem_append_right _ hx]

theorem chain_erase_of_ne (hpp : Attached pp h) (he : e ∈ h)
    (hne : II ≠ e.identifier) : (h.erase e.address).chain II = h.chain II := by
  rw [History.chain_erase]
  refine filter_eq_self.mpr fun x hx => decide_eq_true ?_
  intro heq
  obtain ⟨hmem, hidentifier⟩ := History.mem_chain.mp hx
  rw [hpp.eq_of_address hmem he heq] at hidentifier
  exact hne hidentifier.symm

theorem of_erase (hpp : Attached pp h) (he : e ∈ h) {pp' : Preprocessor}
    (hself : Linked pp'.previous (pp'.macros e.identifier) ((h.erase e.address).cells e.identifier))
    (hother : ∀ II, II ≠ e.identifier → Linked pp'.previous (pp'.macros II) (h.cells II))
    (hcontent : ∀ a, (pp'.directive a).kind = (pp.directive a).kind ∧
      (pp'.directive a).location = (pp.directive a).location)
    (hallocated : pp'.allocated = pp.allocated) : Attached pp' (h.erase e.address) := by
  refine ⟨fun II => ?_, fun x hx => ?_, ?_, fun x hx => ?_⟩
  · by_cases hII : II = e.identifier
    · rw [hII]
      exact hself
    · have heq := hpp.chain_erase_of_ne he hII
      unfold History.cells
      rw [heq]
      exact hother II hII
  · rw [(hcontent _).1, (hcontent _).2]
    exact hpp.content x (mem_filter.mp hx).1
  · exact hpp.nodup.sublist (filter_sublist.map _)
  · rw [hallocated]
    exact hpp.bound x (mem_filter.mp hx).1

theorem notMem_cells (hpp : Attached pp h) (he : e ∈ h)
    (hne : II ≠ e.identifier) : e.address ∉ h.cells II := by
  intro hmem
  obtain ⟨x, hx, heq⟩ := List.mem_map.mp hmem
  obtain ⟨hx, hidentifier⟩ := History.mem_chain.mp hx
  rw [hpp.eq_of_address hx he heq] at hidentifier
  exact hne hidentifier.symm

theorem head?_chain_ne (hne : II ≠ e.identifier) :
    (h.chain II).head? ≠ some e := by
  intro hhead
  exact hne (History.mem_chain.mp (mem_of_mem_head? hhead)).2.symm

theorem removeMacro_latest (hpp : Attached pp h) (he : e ∈ h)
    {earlier : List Appended} (hsplit : h.chain e.identifier = e :: earlier)
    (herase : (h.erase e.address).chain e.identifier = earlier) :
    ∃ pp', pp.removeMacro e.identifier e.address = some pp' ∧ Removes pp h e pp' := by
  have hlinked := hpp.linked e.identifier
  have hfuel := hpp.length_cells_lt e.identifier
  unfold History.cells at hlinked hfuel
  rw [hsplit, map_cons] at hlinked hfuel
  have hearlier : earlier ⊆ h := fun x hx =>
    (History.mem_chain.mp (by rw [hsplit]; simp [hx] : x ∈ h.chain e.identifier)).1
  have hmacros : pp.macros e.identifier = some e.address := hlinked.start_eq
  have hprevious := hlinked.tail
  have hremove : pp.removeMacro e.identifier e.address =
      some ({ pp with
        macros := update pp.macros e.identifier
          (pp.previous e.address) }.setHasMacroDefinition e.identifier
            (History.isDefined earlier)) := by
    unfold Preprocessor.removeMacro
    rw [if_pos hmacros]
    cases earlier with
    | nil =>
      rw [show pp.previous e.address = none from hprevious.start_eq]
      rfl
    | cons p rest =>
      have hp : pp.previous e.address = some p.address := hprevious.start_eq
      have hdefined : MacroDirective.isDefined pp.directive pp.fuel p.address =
          some (History.isDefined (p :: rest)) := by
        rw [← hpp.definedIn_eq hearlier]
        rw [hp] at hprevious
        refine MacroDirective.isDefined_eq hprevious ?_
        simp only [map_cons, length_cons] at hfuel ⊢
        omega
      simp only [hp, hdefined, Option.bind_eq_bind, Option.bind_some]
  refine ⟨_, hremove, ⟨rfl, rfl, rfl, rfl, rfl⟩,
    hpp.of_erase he ?_ ?_ (fun _ => ⟨rfl, rfl⟩) rfl, fun II => ?_, rfl, fun slot => ?_, rfl⟩
  · unfold History.cells
    rw [herase]
    show Linked pp.previous (update pp.macros e.identifier _ e.identifier) _
    rw [update_self]
    exact hprevious
  · intro II hne
    show Linked pp.previous (update pp.macros e.identifier _ II) _
    rw [update_of_ne hne]
    exact hpp.linked II
  · show update pp.hasMacroDefinition e.identifier _ II = _
    by_cases hII : II = e.identifier
    · rw [hII, update_self, if_pos (by rw [hsplit]; rfl), herase]
    · rw [update_of_ne hII, if_neg (head?_chain_ne hII)]
  · cases slot <;> rfl

theorem removeMacro_behind (hpp : Attached pp h) {e next : Appended} (he : e ∈ h)
    {before earlier : List Appended}
    (hsplit : h.chain e.identifier = before ++ next :: e :: earlier)
    (herase : (h.erase e.address).chain e.identifier = before ++ next :: earlier) :
    ∃ pp', pp.removeMacro e.identifier e.address = some pp' ∧ Removes pp h e pp' := by
  have hlinked := hpp.linked e.identifier
  have hnodup := hpp.nodup_cells e.identifier
  have hfuel := hpp.length_cells_lt e.identifier
  unfold History.cells at hlinked hnodup hfuel
  rw [hsplit, map_append, map_cons, map_cons] at hlinked hnodup hfuel
  have hmacros : pp.macros e.identifier ≠ some e.address := hlinked.start_ne hnodup
  have hhead : (h.chain e.identifier).head? ≠ some e := by
    intro hhead
    refine hmacros ?_
    rw [(hpp.linked e.identifier).start_eq, History.cells, head?_map, hhead]
    rfl
  have hnext : findNext pp.previous e.address pp.fuel (pp.macros e.identifier) =
      some next.address := by
    refine hlinked.findNext_eq hnodup ?_
    simp only [length_append, length_cons, length_map] at hfuel ⊢
    omega
  have hremove : pp.removeMacro e.identifier e.address =
      some (pp.setPrevious next.address (pp.previous e.address)) := by
    unfold Preprocessor.removeMacro
    rw [if_neg hmacros, hnext]
    rfl
  have hnextmem : next ∈ h ∧ next.identifier = e.identifier := by
    refine History.mem_chain.mp ?_
    rw [hsplit]
    simp
  refine ⟨_, hremove, ⟨rfl, rfl, rfl, rfl, rfl⟩,
    hpp.of_erase he ?_ ?_ (pp.directive_setPrevious _ _) rfl, fun II => ?_, rfl, fun slot => ?_,
    rfl⟩
  · rw [pp.previous_setPrevious]
    unfold History.cells
    rw [herase, map_append, map_cons]
    exact hlinked.unlink hnodup
  · intro II hne
    rw [pp.previous_setPrevious]
    refine (hpp.linked II).update_of_notMem ?_
    exact hpp.notMem_cells hnextmem.1 (by rw [hnextmem.2]; exact hne)
  · rw [if_neg]
    · rfl
    · by_cases hII : II = e.identifier
      · rw [hII]
        exact hhead
      · exact head?_chain_ne hII
  · cases slot <;> rfl

theorem removeMacro (hpp : Attached pp h) (he : e ∈ h) :
    ∃ pp', pp.removeMacro e.identifier e.address = some pp' ∧ Removes pp h e pp' := by
  obtain ⟨later, earlier, hsplit, herase⟩ := hpp.chain_split he
  rcases eq_nil_or_concat' later with rfl | ⟨before, next, rfl⟩
  · exact hpp.removeMacro_latest he hsplit herase
  · rw [append_assoc, singleton_append] at hsplit herase
    exact hpp.removeMacro_behind he hsplit herase

end Attached

end Zapcc.Lex
