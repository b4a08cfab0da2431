import Zapcc.CodeGen.LiveRangeDefs
import Zapcc.CodeGen.LiveRangeValues

/-!
# Runs of updates

What a call describes is a change of the partial function from slots to values
(`Call.Describes`). Every call within its preconditions makes that change and keeps the segments
coalesced (`step_spec`), and so does every run (`LiveRange.AllAllowed.exact`).
-/

namespace Zapcc.LiveInterval

open Intervals SlotIndex Option

/-- The last slot before `Use`, from `StartIdx` on, that has a value. -/
structure LastLive (m : Nat → Option Nat) (StartIdx Use p v : Nat) : Prop where
  start : StartIdx ≤ p
  before : p < Use
  value : m p = some v
  last : ∀ q, p < q → q < Use → m q = none

/-- The value that is live before a use is extended to it, unless it is undefined in between. -/
def ExtendsTo (m m' : Nat → Option Nat) (Undefs : List Nat) (StartIdx Use : Nat) (r : Result) :
    Prop :=
  (r.valno = none ∧ m' = m ∧ ∀ q, StartIdx ≤ q → q < Use → m q = none) ∨
  ∃ p v, LastLive m StartIdx Use p v ∧
    if LiveRange.isUndefIn Undefs (p + 1) (getPrevSlot Use) then
      r.valno = none ∧ r.undef = true ∧ m' = m
    else
      r.valno = some v ∧ r.undef = false ∧ m' = fill m p Use (some v)

/-- A dead def finds the value that its instruction defines, and the def becomes the earlier slot
of the two, or it adds a value that is live from `Def` to the end of the instruction. -/
def Defines (LR LR' : LiveRange) (m m' : Nat → Option Nat) (Def : Nat) (ForVNI : Option Nat)
    (v : Nat) : Prop :=
  (∃ x, isSameInstr Def x ∧ m (max Def x) = some v ∧ (LR.info v).defn = some x ∧
    (LR'.info v).defn = some (min Def x) ∧ m' = fill m (min Def x) x (some v)) ∨
  ((∀ x, isSameInstr Def x → Def ≤ x → m x = none) ∧ m' = fill m Def (getDeadSlot Def) (some v) ∧
    (ForVNI = some v ∨ (ForVNI = none ∧ (∀ x, m x ≠ some v) ∧ (LR'.info v).defn = some Def)))

/-- How a call changes the value at each slot. -/
def Call.Describes (LR LR' : LiveRange) (m m' : Nat → Option Nat) (r : Result) : Call → Prop
  | .addSegment S => m' = fill m S.start S.end_ (some S.value)
  | .extendInBlock StartIdx Use => ExtendsTo m m' [] StartIdx Use r
  | .extendInBlockUndefs Undefs StartIdx Use => ExtendsTo m m' Undefs StartIdx Use r
  | .createDeadDef Def => ∃ v, r.valno = some v ∧ Defines LR LR' m m' Def none v
  | .createDeadDefOf VNI =>
    r.valno = some VNI ∧
      ∃ Def, (LR.info VNI).defn = some Def ∧ Defines LR LR' m m' Def (some VNI) VNI
  | .removeSegment Start End _ => m' = fill m Start End none
  | .removeValNo ValNo => m' = fun x => if m x = some ValNo then none else m x
  | .MergeValueNumberInto V1 V2 =>
    r.valno = some (LR.mergedPair V1 V2).2 ∧
      (m' = fun x => (m x).map (relabel (LR.mergedPair V1 V2).1 (LR.mergedPair V1 V2).2)) ∧
      (LR'.info (LR.mergedPair V1 V2).2).defn = (LR.info V2).defn

namespace LiveRange

/-- The preconditions of a call. A pointer to a value is one that the allocator gave out, segments
overlap with no other value, and values are only removed from the vector. -/
def Allowed (LR : LiveRange) : Call → Prop
  | .addSegment S => S.start < S.end_ ∧ S.value < LR.next ∧
      ∀ I ∈ LR.coll, I.start < S.end_ → S.start < I.end_ → I.value = S.value
  | .extendInBlock StartIdx Use => StartIdx < Use
  | .extendInBlockUndefs _ StartIdx Use => StartIdx < Use
  | .createDeadDef Def => DefAllowed LR LR.coll Def none
  | .createDeadDefOf VNI => VNI < LR.next ∧
      ∃ Def, (LR.info VNI).defn = some Def ∧ DefAllowed LR LR.coll Def (some VNI)
  | .removeSegment Start End _ => LR.segmentSet = none ∧ Start < End ∧
      ∃ I ∈ LR.segments, I.start ≤ Start ∧ End ≤ I.end_
  | .removeValNo _ => LR.segmentSet = none
  | .MergeValueNumberInto V1 V2 =>
    LR.segmentSet = none ∧ V1 ≠ V2 ∧ V1 < LR.next ∧ V2 < LR.next

/-- No value that a dead def defines is live up to the slot of its def. -/
def DefsApart (LR : LiveRange) : Call → Prop
  | .createDeadDef Def => StartsAtDef LR.coll Def none
  | .createDeadDefOf VNI => ∀ Def ∈ (LR.info VNI).defn, StartsAtDef LR.coll Def (some VNI)
  | _ => True

/-- Each call of a run meets its preconditions when it is made. -/
def AllAllowed : LiveRange → List Call → Prop
  | _, [] => True
  | LR, c :: calls => LR.Allowed c ∧ ∀ r ∈ LR.step c, AllAllowed r.1 calls

/-- In each state of a run, the dead defs are apart from the values before them. -/
def AllDefsApart : LiveRange → List Call → Prop
  | _, [] => True
  | LR, c :: calls => LR.DefsApart c ∧ ∀ r ∈ LR.step c, AllDefsApart r.1 calls

/-- Each call of a run has a result, makes the change that it describes, and leaves the segments
sorted, disjoint and joined where they touch. -/
def ExactRun : LiveRange → List Call → Prop
  | LR, [] => Coalesced LR.coll
  | LR, c :: calls => Coalesced LR.coll ∧ ∃ LR' r, LR.step c = some (LR', r) ∧
      (∀ m, Denotes LR.coll m → ∃ m', Denotes LR'.coll m' ∧ c.Describes LR LR' m m' r) ∧
      ExactRun LR' calls

/-- What every state of a run has. -/
structure Good (LR : LiveRange) : Prop where
  coalesced : Coalesced LR.coll
  values : ∀ I ∈ LR.coll, I.value < LR.next

variable {LR : LiveRange}

theorem Good.positions (h : LR.Good) : LR.impl.Positions LR.coll := by
  unfold impl
  split
  · exact positions_vector h.coalesced
  · exact positions_set h.coalesced

@[simp] theorem setColl_coll (coll : List Segment) : (LR.setColl coll).coll = coll := by
  unfold setColl LiveRange.coll
  cases LR.segmentSet <;> rfl

@[simp] theorem setColl_next (coll : List Segment) : (LR.setColl coll).next = LR.next := by
  unfold setColl
  cases LR.segmentSet <;> rfl

@[simp] theorem setColl_info (coll : List Segment) : (LR.setColl coll).info = LR.info := by
  unfold setColl
  cases LR.segmentSet <;> rfl

theorem coll_of_segmentSet (h : LR.segmentSet = none) : LR.coll = LR.segments := by
  unfold coll
  rw [h]
  rfl

end LiveRange

open LiveRange

variable {LR : LiveRange} {coll coll' : List Segment} {m : Nat → Option Nat}

theorem values_of_covers {n : Nat} (h : Coalesced coll)
    (hcovers : ∀ x w, Covers coll x w → w < n) : ∀ I ∈ coll, I.value < n := fun I hI =>
  hcovers I.start I.value ⟨I, hI, le_rfl, h.nonempty I hI, rfl⟩

theorem covers_values {n : Nat} (h : ∀ I ∈ coll, I.value < n) {x w : Nat}
    (hw : Covers coll x w) : w < n := by
  obtain ⟨I, hI, -, -, rfl⟩ := hw
  exact h I hI

theorem Added.denotes {a b V : Nat} (h : Added coll a b V coll') (hm : Denotes coll m) :
    Denotes coll' (fill m a b (some V)) := by
  refine hm.fill (fun x w hx hlt hw => ?_) h.covers
  exact h.coalesced.covers_unique ((h.covers x w).mpr (.inl hw))
    ((h.covers x V).mpr (.inr ⟨hx, hlt, rfl⟩))

theorem Added.values {a b V n : Nat} (h : Added coll a b V coll')
    (hcoll : ∀ I ∈ coll, I.value < n) (hV : V < n) : ∀ I ∈ coll', I.value < n :=
  values_of_covers h.coalesced fun x w hw => by
    rcases (h.covers x w).mp hw with hw | ⟨-, -, rfl⟩
    · exact covers_values hcoll hw
    · exact hV

theorem eq_none_of_not_covers (hm : Denotes coll m) {x : Nat} (h : ∀ w, ¬ Covers coll x w) :
    m x = none := by
  cases hx : m x with
  | none => rfl
  | some w => exact absurd ((hm x w).mp hx) (h w)

theorem LiveBefore.lastLive {StartIdx Use p v : Nat} (h : LiveBefore coll StartIdx Use p v)
    (hm : Denotes coll m) : LastLive m StartIdx Use p v where
  start := h.start
  before := h.before
  value := (hm p v).mpr h.covers
  last := fun q hq hlt => eq_none_of_not_covers hm fun w => h.last q w hq hlt

structure Stepped (LR LR' : LiveRange) (c : Call) (r : Result) : Prop where
  step : LR.step c = some (LR', r)
  good : LR'.Good
  describes : ∀ m, Denotes LR.coll m → ∃ m', Denotes LR'.coll m' ∧ c.Describes LR LR' m m' r

theorem step_addSegment {S : Segment} (h : LR.Good) (hallowed : LR.Allowed (.addSegment S)) :
    ∃ LR' r, Stepped LR LR' (.addSegment S) r := by
  obtain ⟨hS, hvalue, hcompat⟩ := hallowed
  obtain ⟨coll', hadd, hadded⟩ := addSegment_spec h.coalesced hS hcompat
  refine ⟨LR.setColl coll', ⟨none, false⟩, ?_, ⟨?_, ?_⟩, fun m hm => ⟨_, ?_, rfl⟩⟩
  · simp only [step, hadd _ h.positions, map_some]
  · simpa using hadded.coalesced
  · simpa using hadded.values h.values hvalue
  · simpa using hadded.denotes hm

theorem step_extendInBlockUndefs {Undefs : List Nat} {StartIdx Use : Nat} (h : LR.Good)
    (hallowed : LR.Allowed (.extendInBlockUndefs Undefs StartIdx Use)) :
    ∃ LR' r, Stepped LR LR' (.extendInBlockUndefs Undefs StartIdx Use) r := by
  obtain ⟨coll', v, undef, hextend, hcases⟩ :=
    extendInBlockUndefs_spec h.coalesced Undefs hallowed
  refine ⟨LR.setColl coll', ⟨v, undef⟩, ?_, ?_, fun m hm => ?_⟩
  · simp only [step, hextend _ h.positions, map_some]
  · rcases hcases with ⟨-, rfl, -⟩ | ⟨p, v, hlive, ⟨-, rfl, -, -⟩ | ⟨-, hadded, -, -⟩⟩
    · exact ⟨by simpa using h.coalesced, by simpa using h.values⟩
    · exact ⟨by simpa using h.coalesced, by simpa using h.values⟩
    · exact ⟨by simpa using hadded.coalesced,
        by simpa using hadded.values h.values (covers_values h.values hlive.covers)⟩
  · rcases hcases with ⟨rfl, rfl, hnot⟩ |
      ⟨p, v, hlive, ⟨rfl, rfl, rfl, hundef⟩ | ⟨rfl, hadded, rfl, hundef⟩⟩
    · exact ⟨m, by simpa using hm, .inl ⟨rfl, rfl, fun q hq hlt =>
        eq_none_of_not_covers hm fun w => hnot q w hq hlt⟩⟩
    · refine ⟨m, by simpa using hm, .inr ⟨p, v, hlive.lastLive hm, ?_⟩⟩
      rw [if_pos hundef]
      exact ⟨rfl, rfl, rfl⟩
    · refine ⟨fill m p Use (some v), by simpa using hadded.denotes hm,
        .inr ⟨p, v, hlive.lastLive hm, ?_⟩⟩
      rw [if_neg (by simp [hundef])]
      exact ⟨rfl, rfl, rfl⟩

theorem step_extendInBlock {StartIdx Use : Nat} (h : LR.Good)
    (hallowed : LR.Allowed (.extendInBlock StartIdx Use)) :
    ∃ LR' r, Stepped LR LR' (.extendInBlock StartIdx Use) r := by
  have hallowed' : LR.Allowed (.extendInBlockUndefs [] StartIdx Use) := hallowed
  obtain ⟨LR', r, hstep, hgood, hdescribes⟩ := step_extendInBlockUndefs h hallowed'
  rw [LiveRange.step_extendInBlockUndefs_nil] at hstep
  exact ⟨LR', r, hstep, hgood, hdescribes⟩

theorem deadDef_spec {Def : Nat} {ForVNI : Option Nat} (h : LR.Good)
    (hallowed : DefAllowed LR LR.coll Def ForVNI) (hstarts : StartsAtDef LR.coll Def ForVNI)
    (hVNI : ∀ V ∈ ForVNI, V < LR.next) :
    ∃ LR' coll' v, (∀ M : Impl, M.Positions LR.coll →
        createDeadDef M LR LR.coll Def ForVNI = some (LR', coll', v)) ∧
      (ForVNI = none ∨ ForVNI = some v) ∧ LR'.segmentSet = LR.segmentSet ∧
      (LR'.setColl coll').Good ∧ ∀ m, Denotes LR.coll m →
        ∃ m', Denotes coll' m' ∧ Defines LR (LR'.setColl coll') m m' Def ForVNI v := by
  obtain ⟨LR', coll', v, hcreate, hcases⟩ :=
    createDeadDef_spec h.coalesced h.values hallowed hstarts
  rcases hcases with ⟨x, hfound⟩ | hnew
  · have hsame : LR'.next = LR.next ∧ LR'.segmentSet = LR.segmentSet := by
      rcases hfound.same with rfl | rfl
      · exact ⟨rfl, rfl⟩
      · exact ⟨rfl, rfl⟩
    refine ⟨LR', coll', v, hcreate, hfound.given, hsame.2, ⟨?_, ?_⟩, fun m hm =>
      ⟨_, hfound.added.denotes hm, .inl ⟨x, hfound.sameInstr, (hm _ _).mpr hfound.covers,
        hfound.defn, by simpa using hfound.info, rfl⟩⟩⟩
    · simpa using hfound.added.coalesced
    · simpa [hsame.1] using hfound.added.values h.values (covers_values h.values hfound.covers)
  · have hfree : ∀ m, Denotes LR.coll m → ∀ x, isSameInstr Def x → Def ≤ x → m x = none :=
      fun m hm x hsame hle => eq_none_of_not_covers hm fun w => hnew.free x w hsame hle
    rcases hnew.value with ⟨hgiven, rfl⟩ | ⟨hnone, hvalue⟩
    · refine ⟨LR', coll', v, hcreate, .inr hgiven, rfl, ⟨?_, ?_⟩, fun m hm =>
        ⟨_, hnew.added.denotes hm, .inr ⟨hfree m hm, rfl, .inl hgiven⟩⟩⟩
      · simpa using hnew.added.coalesced
      · simpa using hnew.added.values h.values (hVNI v hgiven)
    · obtain ⟨rfl, rfl⟩ := Prod.mk.inj hvalue
      refine ⟨_, coll', _, hcreate, .inl hnone, rfl, ⟨?_, ?_⟩, fun m hm =>
        ⟨_, hnew.added.denotes hm, .inr ⟨hfree m hm, rfl, .inr ⟨hnone, fun x hx => ?_, ?_⟩⟩⟩⟩
      · simpa using hnew.added.coalesced
      · have hnext := hnew.added.values (n := LR.next + 1)
          (fun I hI => Nat.lt_succ_of_lt (h.values I hI)) (Nat.lt_succ_self _)
        simpa [getNextValue] using hnext
      · exact absurd (covers_values h.values ((hm x _).mp hx)) (lt_irrefl _)
      · simp [setInfo]

theorem step_createDeadDef {Def : Nat} (h : LR.Good) (hallowed : LR.Allowed (.createDeadDef Def))
    (hdefs : LR.DefsApart (.createDeadDef Def)) :
    ∃ LR' r, Stepped LR LR' (.createDeadDef Def) r := by
  obtain ⟨LR', coll', v, hcreate, -, -, hgood, hdefines⟩ :=
    deadDef_spec h hallowed hdefs (by simp)
  refine ⟨LR'.setColl coll', ⟨some v, false⟩, ?_, hgood, fun m hm => ?_⟩
  · simp only [step, hcreate _ h.positions, map_some]
  · obtain ⟨m', hm', hdefine⟩ := hdefines m hm
    exact ⟨m', by simpa using hm', v, rfl, hdefine⟩

theorem step_createDeadDefOf {VNI : Nat} (h : LR.Good)
    (hallowed : LR.Allowed (.createDeadDefOf VNI)) (hdefs : LR.DefsApart (.createDeadDefOf VNI)) :
    ∃ LR' r, Stepped LR LR' (.createDeadDefOf VNI) r := by
  obtain ⟨hVNI, Def, hDef, hallowed⟩ := hallowed
  obtain ⟨LR', coll', v, hcreate, hgiven, -, hgood, hdefines⟩ :=
    deadDef_spec h hallowed (hdefs Def hDef) (by simpa using hVNI)
  obtain rfl : VNI = v := by simpa using hgiven
  refine ⟨LR'.setColl coll', ⟨some VNI, false⟩, ?_, hgood, fun m hm => ?_⟩
  · simp only [step, hDef, bind_some, hcreate _ h.positions, map_some]
  · obtain ⟨m', hm', hdefine⟩ := hdefines m hm
    exact ⟨m', by simpa using hm', rfl, Def, hDef, hdefine⟩

theorem Trimmed.good {LR' : LiveRange} {keeps : Nat → Nat → Prop} (h : Trimmed LR LR' keeps)
    (hset : LR.segmentSet = none) (hgood : LR.Good) : LR'.Good := by
  have hcoll := coll_of_segmentSet hset
  have hcoll' := coll_of_segmentSet (h.segmentSet.trans hset)
  refine ⟨by rw [hcoll']; exact h.coalesced, ?_⟩
  rw [hcoll', h.next]
  exact values_of_covers h.coalesced fun x w hw =>
    covers_values hgood.values (hcoll ▸ ((h.covers x w).mp hw).1)

theorem step_removeSegment {Start End : Nat} {RemoveDeadValNo : Bool} (h : LR.Good)
    (hallowed : LR.Allowed (.removeSegment Start End RemoveDeadValNo)) :
    ∃ LR' r, Stepped LR LR' (.removeSegment Start End RemoveDeadValNo) r := by
  obtain ⟨hset, hlt, I, hI, hstart, hend⟩ := hallowed
  have hcoll := coll_of_segmentSet hset
  obtain ⟨LR', hremove, htrimmed⟩ :=
    removeSegment_spec (hcoll ▸ h.coalesced) hI hstart hlt hend RemoveDeadValNo
  have hcoll' := coll_of_segmentSet (htrimmed.segmentSet.trans hset)
  refine ⟨LR', ⟨none, false⟩, ?_, htrimmed.good hset h, fun m hm => ⟨_, ?_, rfl⟩⟩
  · simp only [step, hremove, map_some]
  · rw [hcoll']
    rw [hcoll] at hm
    exact hm.clear htrimmed.covers

theorem step_removeValNo {ValNo : Nat} (h : LR.Good) (hset : LR.Allowed (.removeValNo ValNo)) :
    ∃ LR' r, Stepped LR LR' (.removeValNo ValNo) r := by
  have hcoll := coll_of_segmentSet hset
  have htrimmed := removeValNo_spec (hcoll ▸ h.coalesced) ValNo
  have hcoll' := coll_of_segmentSet (htrimmed.segmentSet.trans hset)
  refine ⟨LR.removeValNo ValNo, ⟨none, false⟩, rfl, htrimmed.good hset h, fun m hm =>
    ⟨_, fun x w => ?_, rfl⟩⟩
  rw [hcoll', htrimmed.covers, ← hcoll, ← hm x w]
  by_cases hx : m x = some ValNo
  · rw [if_pos hx, hx]
    simp [eq_comm]
  · rw [if_neg hx]
    refine ⟨fun hw => ⟨hw, fun heq => hx (heq ▸ hw)⟩, And.left⟩

theorem step_merge {V1 V2 : Nat} (h : LR.Good)
    (hallowed : LR.Allowed (.MergeValueNumberInto V1 V2)) :
    ∃ LR' r, Stepped LR LR' (.MergeValueNumberInto V1 V2) r := by
  obtain ⟨hset, hne, hV1, hV2⟩ := hallowed
  have hcoll := coll_of_segmentSet hset
  obtain ⟨LR', hmerge, hmerged⟩ := MergeValueNumberInto_spec (hcoll ▸ h.coalesced) hne
  have hcoll' := coll_of_segmentSet (hmerged.segmentSet.trans hset)
  have hkept : (LR.mergedPair V1 V2).2 < LR.next := by
    unfold mergedPair
    split
    · exact hV1
    · exact hV2
  refine ⟨LR', ⟨some (LR.mergedPair V1 V2).2, false⟩, ?_, ⟨?_, ?_⟩, fun m hm =>
    ⟨_, fun x w => ?_, rfl, rfl, hmerged.defn⟩⟩
  · simp only [step, hmerge, map_some]
  · rw [hcoll']
    exact hmerged.coalesced
  · rw [hcoll', hmerged.next]
    refine values_of_covers hmerged.coalesced fun x w hw => ?_
    obtain ⟨v, hv, rfl⟩ := (hmerged.covers x w).mp hw
    have hvalue := covers_values h.values (hcoll ▸ hv)
    unfold relabel
    split
    · exact hkept
    · exact hvalue
  · rw [hcoll', hmerged.covers, map_eq_some_iff, ← hcoll]
    exact exists_congr fun v => and_congr_left fun _ => hm x v

theorem step_spec {c : Call} (h : LR.Good) (hallowed : LR.Allowed c) (hdefs : LR.DefsApart c) :
    ∃ LR' r, Stepped LR LR' c r := by
  cases c with
  | addSegment S => exact step_addSegment h hallowed
  | extendInBlock StartIdx Use => exact step_extendInBlock h hallowed
  | extendInBlockUndefs Undefs StartIdx Use => exact step_extendInBlockUndefs h hallowed
  | createDeadDef Def => exact step_createDeadDef h hallowed hdefs
  | createDeadDefOf VNI => exact step_createDeadDefOf h hallowed hdefs
  | removeSegment Start End RemoveDeadValNo => exact step_removeSegment h hallowed
  | removeValNo ValNo => exact step_removeValNo h hallowed
  | MergeValueNumberInto V1 V2 => exact step_merge h hallowed

theorem LiveRange.AllAllowed.exact {calls : List Call} (h : LR.Good)
    (hallowed : LR.AllAllowed calls) (hdefs : LR.AllDefsApart calls) : LR.ExactRun calls := by
  induction calls generalizing LR with
  | nil => exact h.coalesced
  | cons c calls ih =>
    obtain ⟨LR', r, hstepped⟩ := step_spec h hallowed.1 hdefs.1
    have hmem : (LR', r) ∈ LR.step c := hstepped.step
    exact ⟨h.coalesced, LR', r, hstepped.step, hstepped.describes,
      ih hstepped.good (hallowed.2 _ hmem) (hdefs.2 _ hmem)⟩

end Zapcc.LiveInterval
