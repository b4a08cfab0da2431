import Zapcc.Lex.Directives

/-!
# The texts of watched macros

The preprocessor tracks a text for every watched identifier, and sets it with every directive
that it appends. `Status` is what the directives of a compilation did to one identifier, in
terms of the directives only. `tracks_iff` says exactly when the tracked text is the text of the
current definition: an `#undef` leaves the text of the macro that it undefines.
-/

namespace Zapcc.Lex

open LinkedList List Option Bool Function

/-- The text that should be tracked for an identifier. -/
def Preprocessor.currentText (pp : Preprocessor) (II : IdentifierInfo) : Option String :=
  (pp.definition II).map fun definition =>
    match definition with
    | some mi => Preprocessor.getMacroText mi
    | none => macroUndefined

/-- The tracked text is the text of the current definition. -/
def Tracks (pp : Preprocessor) (II : IdentifierInfo) : Prop :=
  pp.commandLineMainIdentifiersIdentifiers II = pp.currentText II

/-- The macro that the latest directive of an identifier belongs to. -/
def Preprocessor.latestInfo (pp : Preprocessor) (II : IdentifierInfo) : Option MacroInfo :=
  (pp.macros II).bind fun a => (MacroDirective.getMacroInfo pp.directive pp.fuel a).getD none

/-- What the directives of a compilation did to an identifier: none took effect, the last one
that did is a `#define`, or it is an `#undef` and the last macro is the given one. -/
inductive Status where
  | untouched
  | defined (mi : MacroInfo)
  | undefined (mi : MacroInfo)

namespace Status

/-- The effect of an `#undef`, for an identifier that has the definition `cached` while no
directive took effect, and whose latest macro was then `latest`. -/
def undef (cached latest : Option MacroInfo) : Status → Status
  | untouched =>
    match cached, latest with
    | some _, some mi => undefined mi
    | _, _ => untouched
  | defined mi => undefined mi
  | undefined mi => undefined mi

/-- The included files and the status after an event. `cached` is the definition that the cached
directives give when some files are included. -/
def step (cached : List FileEntry → Option MacroInfo) (latest : Option MacroInfo)
    (II : IdentifierInfo) : List FileEntry × Status → Event → List FileEntry × Status
  | (includes, status), .define place J mi =>
    (place.addTo includes, if J = II then defined mi else status)
  | (includes, status), .undef place J =>
    (place.addTo includes,
      if J = II then status.undef (cached (place.addTo includes)) latest else status)
  | (includes, status), .included fileEntries => (fileEntries ++ includes, status)

/-- The last directive that took effect is a `#define`; or none took effect, and no cached
directive defines the identifier; or the last macro has the text that marks an undefined one. -/
def Agrees (cached : Option MacroInfo) : Status → Prop
  | untouched => ∀ mi, cached = some mi → Preprocessor.getMacroText mi = macroUndefined
  | defined _ => True
  | undefined mi => Preprocessor.getMacroText mi = macroUndefined

end Status

/-- The definition of an identifier if the given files are included. -/
def Preprocessor.cachedDefinition (pp : Preprocessor) (II : IdentifierInfo)
    (includes : List FileEntry) : Option MacroInfo :=
  (({ pp with includes := includes } : Preprocessor).definition II).getD none

/-- What a status says about a state, when the compilation started from the state `pp₀` with the
history `h₀`. -/
def Status.Describes (pp₀ : Preprocessor) (h₀ : History) (II : IdentifierInfo)
    (pp : Preprocessor) (h : History) : Status → Prop
  | untouched => h.chain II = h₀.chain II ∧ pp.hasMacroDefinition II = pp₀.hasMacroDefinition II ∧
      pp.commandLineMainIdentifiersIdentifiers II = some macroUndefined
  | defined mi => (∃ e rest, h.chain II = e :: rest ∧ e.kind = .define mi ∧
        pp.wasIncluded e.location = true) ∧
      pp.hasMacroDefinition II = true ∧
      pp.commandLineMainIdentifiersIdentifiers II = some (Preprocessor.getMacroText mi)
  | undefined mi => History.lastInfo (h.chain II) = some mi ∧ pp.hasMacroDefinition II = false ∧
      pp.commandLineMainIdentifiersIdentifiers II = some (Preprocessor.getMacroText mi)

/-- The state of a compilation together with its status. -/
structure Follows (pp₀ : Preprocessor) (h₀ : History) (II : IdentifierInfo) (pp : Preprocessor)
    (progress : List FileEntry × Status) (h : History) : Prop extends Represents pp h where
  includes : pp.includes = progress.1
  describes : progress.2.Describes pp₀ h₀ II pp h

variable {pp₀ pp pp' : Preprocessor} {II : IdentifierInfo} {status : Status}

theorem wasIncluded_mono (hcaching : pp'.cachingMode = pp.cachingMode)
    (hincludes : pp.includes ⊆ pp'.includes) {location : SourceLocation}
    (h : pp.wasIncluded location = true) : pp'.wasIncluded location = true := by
  unfold Preprocessor.wasIncluded at h ⊢
  rw [hcaching]
  refine or_eq_true_iff.mpr ((or_eq_true_iff.mp h).imp_right fun hfile => ?_)
  cases hentry : location.fileEntry with
  | none => rfl
  | some fe =>
    rw [hentry] at hfile
    exact contains_iff_mem.mpr (hincludes (contains_iff_mem.mp hfile))

theorem Status.Describes.mono {h₀ h h' : History}
    (hstatus : status.Describes pp₀ h₀ II pp h)
    (hchain : h'.chain II = h.chain II)
    (hflag : pp'.hasMacroDefinition II = pp.hasMacroDefinition II)
    (htracked : pp'.commandLineMainIdentifiersIdentifiers II =
      pp.commandLineMainIdentifiersIdentifiers II)
    (hcaching : pp'.cachingMode = pp.cachingMode) (hincludes : pp.includes ⊆ pp'.includes) :
    status.Describes pp₀ h₀ II pp' h' := by
  cases status with
  | untouched =>
    unfold Describes at hstatus ⊢
    rw [hchain, hflag, htracked]
    exact hstatus
  | defined mi =>
    obtain ⟨⟨e, rest, heq, hkind, he⟩, hhas, htext⟩ := hstatus
    unfold Describes
    rw [hchain, hflag, htracked]
    exact ⟨⟨e, rest, heq, hkind, wasIncluded_mono hcaching hincludes he⟩, hhas, htext⟩
  | undefined mi =>
    unfold Describes at hstatus ⊢
    rw [hchain, hflag, htracked]
    exact hstatus

/-- The current definition that goes with a status. -/
def Status.current (cached : Option MacroInfo) : Status → Option MacroInfo
  | untouched => cached
  | defined mi => some mi
  | undefined _ => none

def Status.text : Status → String
  | untouched => macroUndefined
  | defined mi => Preprocessor.getMacroText mi
  | undefined mi => Preprocessor.getMacroText mi

theorem Represents.cachedDefinition_eq {pp₀ : Preprocessor} {h₀ : History}
    (hpp₀ : Represents pp₀ h₀) (II : IdentifierInfo) (includes : List FileEntry) :
    ({ pp₀ with includes := includes } : Preprocessor).definition II =
      some (pp₀.cachedDefinition II includes) := by
  have hincluded : Attached { pp₀ with includes := includes } h₀ :=
    hpp₀.toAttached.of_eq rfl rfl rfl
  unfold Preprocessor.cachedDefinition
  rw [hincluded.definition_eq II]
  rfl

namespace Status.Describes

variable {pp₀ pp : Preprocessor} {h₀ h : History} {II : IdentifierInfo} {status : Status}

theorem tracked (hstatus : status.Describes pp₀ h₀ II pp h) :
    pp.commandLineMainIdentifiersIdentifiers II = some status.text := by
  cases status with
  | untouched | defined mi | undefined mi => exact hstatus.2.2

theorem definition (hstatus : status.Describes pp₀ h₀ II pp h) (hpp₀ : Represents pp₀ h₀)
    (hpp : Represents pp h) :
    pp.definition II = some (status.current (pp₀.cachedDefinition II pp.includes)) := by
  cases status with
  | untouched =>
    obtain ⟨hchain, hflag, -⟩ := hstatus
    have hincluded : Attached { pp₀ with includes := pp.includes } h₀ :=
      hpp₀.toAttached.of_eq rfl rfl rfl
    unfold Status.current
    rw [← hpp₀.cachedDefinition_eq II pp.includes, hpp.toAttached.definition_eq II,
      hincluded.definition_eq II, hchain, hflag]
    rw [History.found_congr (show pp.cachingMode =
      ({ pp₀ with includes := pp.includes } : Preprocessor).cachingMode from
        hpp.cachingMode.trans hpp₀.cachingMode.symm) rfl]
  | defined mi =>
    obtain ⟨⟨e, rest, hchain, hkind, he⟩, hflag, -⟩ := hstatus
    have hfound : History.found pp (e :: rest) = some e := by
      unfold History.found
      rw [dropWhile_cons_of_neg (by simp [hkind, MacroDirective.Kind.isVisibility]),
        dropWhile_cons_of_neg (by simp [he])]
      rfl
    rw [hpp.toAttached.definition_eq II, hchain, hflag, hfound, if_pos rfl, bind_some, hkind]
    rfl
  | undefined mi =>
    obtain ⟨-, hflag, -⟩ := hstatus
    rw [hpp.toAttached.definition_eq II, hflag]
    rfl

theorem tracked_iff (hstatus : status.Describes pp₀ h₀ II pp h) (hpp₀ : Represents pp₀ h₀)
    (hpp : Represents pp h) :
    Tracks pp II ↔ status.Agrees (pp₀.cachedDefinition II pp.includes) := by
  unfold Tracks Preprocessor.currentText
  rw [hstatus.tracked, hstatus.definition hpp₀ hpp, map_some, some_inj]
  cases status with
  | untouched =>
    unfold Status.current Status.text Status.Agrees
    cases pp₀.cachedDefinition II pp.includes with
    | none => simp
    | some mi => simp [eq_comm]
  | defined mi => exact iff_of_true rfl trivial
  | undefined mi => exact Iff.rfl

end Status.Describes

theorem Attached.lastInfo_isSome {pp : Preprocessor} {h : History} (hpp : Attached pp h)
    {mi : MacroInfo} (hdefinition : pp.definition II = some (some mi)) :
    (History.lastInfo (h.chain II)).isSome = true := by
  rw [hpp.definition_eq II, some_inj] at hdefinition
  split at hdefinition
  · obtain ⟨e, hfound, hinfo⟩ := bind_eq_some_iff.mp hdefinition
    have he : e ∈ h.chain II := (dropWhile_suffix _).mem
      ((dropWhile_suffix _).mem (mem_of_mem_head? hfound))
    exact List.findSome?_isSome_iff.mpr ⟨e, he, by simp [hinfo]⟩
  · cases hdefinition

theorem Status.Describes.append_of_ne {h₀ h : History}
    {e : Appended}
    (hstatus : status.Describes pp₀ h₀ II pp h) (happends : Appends pp h e pp')
    (hne : e.identifier ≠ II) : status.Describes pp₀ h₀ II pp' (h ++ [e]) := by
  refine hstatus.mono (History.chain_append_of_ne h e hne) ?_ ?_ happends.cachingMode
    (by rw [happends.includes]; exact List.Subset.refl _)
  · rw [happends.flags, update_of_ne (Ne.symm hne)]
  · rw [happends.tracked]
    split
    · exact Preprocessor.trackedAfter_of_ne _ (Ne.symm hne) _
    · rfl

theorem Status.describes_define {h₀ h : History} {e : Appended}
    {mi : MacroInfo} (hstatus : status.Describes pp₀ h₀ e.identifier pp h)
    (happends : Appends pp h e pp') (hlexer : pp.curPPLexer.isSome = true)
    (hcounts : pp.wasIncluded e.location = true) (hkind : e.kind = .define mi) :
    (Status.defined mi).Describes pp₀ h₀ e.identifier pp' (h ++ [e]) := by
  refine ⟨⟨e, _, History.chain_append_self h rfl, hkind, ?_⟩, ?_, ?_⟩
  · unfold Preprocessor.wasIncluded at hcounts ⊢
    rw [happends.cachingMode, happends.includes]
    exact hcounts
  · rw [happends.flags, update_self]
    unfold History.isDefined
    rw [find?_cons, hkind]
    simp only [MacroDirective.Kind.isVisibility, Bool.not_false, hkind]
    rfl
  · have hlast : History.lastInfo (e :: h.chain e.identifier) = some mi := by
      unfold History.lastInfo
      rw [findSome?_cons, hkind]
      rfl
    rw [happends.tracked, if_pos hlexer, hlast]
    exact Preprocessor.trackedAfter_self (by rw [hstatus.tracked]; rfl) mi

theorem Status.describes_undef {h₀ h : History} {e : Appended}
    {mi : MacroInfo} (hstatus : status.Describes pp₀ h₀ e.identifier pp h)
    (happends : Appends pp h e pp') (hlexer : pp.curPPLexer.isSome = true)
    (hleaf : ∀ II, pp.leafModuleMacros II = false) (hkind : e.kind = .undefine)
    (hlast : History.lastInfo (h.chain e.identifier) = some mi) :
    (Status.undefined mi).Describes pp₀ h₀ e.identifier pp' (h ++ [e]) := by
  have hlast' : History.lastInfo (e :: h.chain e.identifier) = some mi := by
    unfold History.lastInfo at hlast ⊢
    rw [findSome?_cons, hkind]
    exact hlast
  refine ⟨?_, ?_, ?_⟩
  · rw [History.chain_append_self h rfl]
    exact hlast'
  · rw [happends.flags, update_self, hleaf, Bool.or_false]
    unfold History.isDefined
    rw [find?_cons, hkind]
    simp only [MacroDirective.Kind.isVisibility, Bool.not_false, hkind]
    rfl
  · rw [happends.tracked, if_pos hlexer, hlast']
    exact Preprocessor.trackedAfter_self (by rw [hstatus.tracked]; rfl) mi

theorem Status.Describes.enter {pp₀ pp : Preprocessor} {h₀ h : History}
    (hstatus : status.Describes pp₀ h₀ II pp h) (place : Place) :
    status.Describes pp₀ h₀ II (pp.enter place) h := by
  refine hstatus.mono rfl rfl rfl rfl fun fe hfe => ?_
  cases place with
  | predefines name => exact hfe
  | file _ => exact mem_insert_of_mem hfe

namespace Follows

variable {pp₀ pp : Preprocessor} {h₀ h : History} {II : IdentifierInfo}
  {progress : List FileEntry × Status}

theorem define (hpp : Follows pp₀ h₀ II pp progress h) (place : Place)
    (J : IdentifierInfo) (mi : MacroInfo) :
    ∃ pp' h', pp.process (.define place J mi) = some pp' ∧
      Follows pp₀ h₀ II pp' (Status.step (pp₀.cachedDefinition II)
        (History.lastInfo (h₀.chain II)) II progress (.define place J mi)) h' := by
  obtain ⟨pp', hpp', happends, hrepresents⟩ :=
    (hpp.toRepresents.enter place).appendNewDirective J (.define mi) place.location
  refine ⟨pp', _, hpp', hrepresents, ?_, ?_⟩
  · rw [happends.includes]
    simp only [Status.step, Preprocessor.enter, hpp.includes]
  · by_cases hJ : J = II
    · subst hJ
      simp only [Status.step, if_true]
      exact Status.describes_define (hpp.describes.enter place) happends rfl
        (Represents.wasIncluded_enter pp place) rfl
    · simp only [Status.step, if_neg hJ]
      exact (hpp.describes.enter place).append_of_ne happends hJ

theorem undef (hpp₀ : Represents pp₀ h₀) (hpp : Follows pp₀ h₀ II pp progress h) (place : Place)
    (J : IdentifierInfo) :
    ∃ pp' h', pp.process (.undef place J) = some pp' ∧
      Follows pp₀ h₀ II pp' (Status.step (pp₀.cachedDefinition II)
        (History.lastInfo (h₀.chain II)) II progress (.undef place J)) h' := by
  have henter := hpp.toRepresents.enter place
  have hstatus := hpp.describes.enter place
  have hincludes : (pp.enter place).includes = place.addTo progress.1 := by
    rw [← hpp.includes]
    rfl
  obtain ⟨md, hmd, hnone⟩ := henter.getMacroDefinition_isSome J
  have hprocess : pp.process (.undef place J) =
      if md.isSome then (pp.enter place).appendNewDirective J .undefine place.location
      else some (pp.enter place) := by
    show (pp.handleUndefDirective place J) = _
    unfold Preprocessor.handleUndefDirective
    rw [hmd]
    rfl
  obtain ⟨pp', hpp', happends, hrepresents⟩ :=
    henter.appendNewDirective J .undefine place.location
  have hincludes' : pp'.includes = place.addTo progress.1 := happends.includes.trans hincludes
  rw [hprocess]
  by_cases hJ : J = II
  · subst hJ
    simp only [Status.step, if_true]
    have hdefinition := hstatus.definition hpp₀ henter
    rw [hincludes] at hdefinition
    -- the directive takes effect exactly when there is a current definition
    cases hcurrent : progress.2.current (pp₀.cachedDefinition J (place.addTo progress.1)) with
    | none =>
      rw [hcurrent] at hdefinition
      rw [hnone.mpr hdefinition]
      refine ⟨_, h, rfl, henter, hincludes, ?_⟩
      cases hprogress : progress.2 with
      | untouched =>
        rw [hprogress] at hcurrent hstatus
        rw [show pp₀.cachedDefinition J (place.addTo progress.1) = none from hcurrent]
        exact hstatus
      | defined mi =>
        rw [hprogress] at hcurrent
        cases hcurrent
      | undefined mi =>
        rw [hprogress] at hstatus
        exact hstatus
    | some current =>
      rw [hcurrent] at hdefinition
      have hsome : md.isSome = true := by
        rw [isSome_iff_ne_none, ne_eq, hnone, hdefinition]
        simp
      rw [if_pos hsome]
      obtain ⟨last, hlast⟩ := isSome_iff_exists.mp
        (henter.toAttached.lastInfo_isSome hdefinition)
      have hundef : (Status.undefined last).Describes pp₀ h₀ J pp' _ :=
        Status.describes_undef hstatus happends rfl henter.leafModuleMacros rfl hlast
      refine ⟨pp', _, hpp', hrepresents, hincludes', ?_⟩
      cases hprogress : progress.2 with
      | untouched =>
        rw [hprogress] at hcurrent hstatus
        rw [show pp₀.cachedDefinition J (place.addTo progress.1) = some current from hcurrent,
          ← hstatus.1, hlast]
        exact hundef
      | defined mi =>
        rw [hprogress] at hstatus
        obtain ⟨⟨e, rest, hchain, hkind, -⟩, -⟩ := hstatus
        have hmi : last = mi := by
          rw [hchain, History.lastInfo, findSome?_cons, hkind] at hlast
          exact (some.inj hlast).symm
        rw [← hmi]
        exact hundef
      | undefined mi =>
        rw [hprogress] at hcurrent
        cases hcurrent
  · simp only [Status.step, if_neg hJ]
    split
    · exact ⟨pp', _, hpp', hrepresents, hincludes', hstatus.append_of_ne happends hJ⟩
    · exact ⟨_, h, rfl, henter, hincludes, hstatus⟩

theorem included (hpp : Follows pp₀ h₀ II pp progress h) (fileEntries : List FileEntry) :
    ∃ pp' h', pp.process (.included fileEntries) = some pp' ∧
      Follows pp₀ h₀ II pp' (Status.step (pp₀.cachedDefinition II)
        (History.lastInfo (h₀.chain II)) II progress (.included fileEntries)) h' := by
  refine ⟨_, h, rfl, hpp.toRepresents.of_eq rfl rfl rfl (fun slot => by cases slot <;> rfl) rfl rfl,
    ?_, hpp.describes.mono rfl rfl rfl rfl fun _ => mem_append_right _⟩
  rw [hpp.includes]
  rfl

theorem process (hpp₀ : Represents pp₀ h₀) (hpp : Follows pp₀ h₀ II pp progress h)
    (event : Event) :
    ∃ pp' h', pp.process event = some pp' ∧
      Follows pp₀ h₀ II pp' (Status.step (pp₀.cachedDefinition II)
        (History.lastInfo (h₀.chain II)) II progress event) h' := by
  cases event with
  | define place J mi => exact hpp.define place J mi
  | undef place J => exact hpp.undef hpp₀ place J
  | included fileEntries => exact hpp.included fileEntries

theorem processAll (hpp₀ : Represents pp₀ h₀) (hpp : Follows pp₀ h₀ II pp progress h)
    (events : List Event) :
    ∃ pp' h', pp.processAll events = some pp' ∧
      Follows pp₀ h₀ II pp' (events.foldl (Status.step (pp₀.cachedDefinition II)
        (History.lastInfo (h₀.chain II)) II) progress) h' := by
  induction events generalizing pp progress h with
  | nil => exact ⟨pp, h, rfl, hpp⟩
  | cons event rest ih =>
    obtain ⟨middle, h', hmiddle, hfollows⟩ := hpp.process hpp₀ event
    obtain ⟨pp', h'', hpp', hfollows'⟩ := ih hfollows
    refine ⟨pp', h'', ?_, hfollows'⟩
    unfold Preprocessor.processAll
    rw [foldlM_cons, hmiddle]
    exact hpp'

end Follows

/-- A compilation starts with the macros that earlier ones left, and with every watched
identifier marked as undefined, as in a new server and after `eraseMacros`. -/
def StartsCompilation (pp₀ : Preprocessor) : Prop :=
  ∃ isUserFile watched operations pp, (Preprocessor.start isUserFile watched).run operations =
      some pp ∧
    (∀ II text, pp.commandLineMainIdentifiersIdentifiers II = some text → text = macroUndefined) ∧
    pp₀ = pp.reset

/-- The included files and the status of an identifier after some events of a compilation. -/
def Status.after (pp₀ : Preprocessor) (II : IdentifierInfo) (events : List Event) :
    List FileEntry × Status :=
  events.foldl (Status.step (pp₀.cachedDefinition II) (pp₀.latestInfo II) II)
    (pp₀.includes, .untouched)

theorem Attached.latestInfo_eq {pp : Preprocessor} {h : History} (hpp : Attached pp h)
    (II : IdentifierInfo) : pp.latestInfo II = History.lastInfo (h.chain II) := by
  have hlinked := hpp.linked II
  have hfuel := hpp.length_cells_lt II
  have hinfo := hpp.lastInfo_eq (fun e he => (History.mem_chain.mp he).1 : h.chain II ⊆ h)
  unfold History.cells at hlinked hfuel
  unfold Preprocessor.latestInfo
  cases hchain : h.chain II with
  | nil =>
    rw [hchain] at hlinked
    rw [show pp.macros II = none from hlinked.start_eq]
    rfl
  | cons e rest =>
    rw [hchain, map_cons] at hlinked hfuel hinfo
    have hmacros : pp.macros II = some e.address := hlinked.start_eq
    rw [hmacros] at hlinked ⊢
    rw [bind_some, MacroDirective.getMacroInfo_eq hlinked hfuel, hinfo]
    rfl

theorem StartsCompilation.follows {pp₀ : Preprocessor} (hstart : StartsCompilation pp₀)
    (hwatched : (pp₀.commandLineMainIdentifiersIdentifiers II).isSome) :
    ∃ h₀, Follows pp₀ h₀ II pp₀ (pp₀.includes, .untouched) h₀ := by
  obtain ⟨isUserFile, watched, operations, pp, hrun, hmarked, rfl⟩ := hstart
  obtain ⟨pp', hpp', hholds, -⟩ := run_holds isUserFile watched operations
  rw [hrun] at hpp'
  cases hpp'
  refine ⟨_, hholds.toRepresents.of_eq rfl rfl rfl (fun slot => by cases slot <;> rfl) rfl rfl,
    rfl, rfl, rfl, ?_⟩
  obtain ⟨text, htext⟩ := isSome_iff_exists.mp hwatched
  rw [htext, hmarked II text htext]

/-- After every sequence of directives of a compilation, the tracked text of a watched
identifier is the text of its current definition if and only if the last directive that took
effect is a `#define`, or none took effect and the identifier is not defined, or the text of the
last macro is the one that marks undefined macros. -/
theorem tracks_iff {pp₀ : Preprocessor} (hstart : StartsCompilation pp₀)
    (hwatched : (pp₀.commandLineMainIdentifiersIdentifiers II).isSome) (events : List Event) :
    ∃ pp, pp₀.processAll events = some pp ∧ (Tracks pp II ↔ (Status.after pp₀ II events).2.Agrees
        (pp₀.cachedDefinition II (Status.after pp₀ II events).1)) := by
  obtain ⟨h₀, hfollows⟩ := hstart.follows hwatched
  obtain ⟨pp, h, hpp, hafter⟩ := hfollows.processAll hfollows.toRepresents events
  rw [← hfollows.toAttached.latestInfo_eq II] at hafter
  refine ⟨pp, hpp, ?_⟩
  have hiff := hafter.describes.tracked_iff hfollows.toRepresents hafter.toRepresents
  rw [hafter.includes] at hiff
  exact hiff

/-- A watched macro that is defined on the command line of the first compilation. -/
theorem tracks_iff_define :
    ∃ pp, (Preprocessor.start (fun _ => true) ["X"]).reset.processAll
        [.define (.predefines (some "<command line>")) "X" ⟨false, [], "1"⟩] = some pp ∧
      (Tracks pp "X" ↔ (Status.after (Preprocessor.start (fun _ => true) ["X"]).reset "X"
        [.define (.predefines (some "<command line>")) "X" ⟨false, [], "1"⟩]).2.Agrees
          ((Preprocessor.start (fun _ => true) ["X"]).reset.cachedDefinition "X" [])) := by
  refine tracks_iff ⟨fun _ => true, ["X"], [], _, rfl, fun II text htext => ?_, rfl⟩ rfl _
  unfold Preprocessor.start at htext
  simp only at htext
  split at htext
  · exact (some.inj htext).symm
  · cases htext

/-- After `#define X 1` and `#undef X` the text of `X` is still that of the definition. -/
theorem undef_keeps_text :
    ¬ ∃ pp, (Preprocessor.start (fun _ => true) ["X"]).reset.processAll
        [.define (.file "main.cpp") "X" ⟨false, [], "1"⟩, .undef (.file "main.cpp") "X"] = some pp ∧
      Tracks pp "X" := by
  rintro ⟨pp, hpp, htracks⟩
  have htexts : ((Preprocessor.start (fun _ => true) ["X"]).reset.processAll
      [.define (.file "main.cpp") "X" ⟨false, [], "1"⟩, .undef (.file "main.cpp") "X"]).map
        (fun pp => (pp.commandLineMainIdentifiersIdentifiers "X", pp.currentText "X")) =
          some (some "1", some "(undefined)") := by
    decide
  rw [hpp, map_some, htracks, some_inj, Prod.mk.injEq] at htexts
  rw [htexts.1] at htexts
  simp at htexts

end Zapcc.Lex
