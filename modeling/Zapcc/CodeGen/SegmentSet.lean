import Zapcc.CodeGen.LiveRangeRuns

/-!
# The temporary segment set

A range that is first computed in the set goes through the lists that the vector goes through
(`run_inSet`), and has them after `flushSegmentSet`. `updates_exact` puts this together with the
runs. A value that is live up to the slot of its own def is the exception: a dead def adds a
segment that touches the one before it.
-/

namespace Zapcc.LiveInterval

open Intervals SlotIndex LiveRange List Option

variable {LR : LiveRange}

def LiveRange.inSet (LR : LiveRange) : LiveRange :=
  { LR with segments := [], segmentSet := some LR.segments }

/-- The calls that are made while the segments are in the set. -/
def Call.BuildsSet : Call → Prop
  | .removeSegment .. => False
  | .removeValNo .. => False
  | .MergeValueNumberInto .. => False
  | _ => True

theorem createDeadDef_with (M : Impl) (LR : LiveRange) (coll s : List Segment)
    (o : Option (List Segment)) (Def : Nat) (ForVNI : Option Nat) :
    createDeadDef M { LR with segments := s, segmentSet := o } coll Def ForVNI =
      (createDeadDef M LR coll Def ForVNI).map fun r =>
        ({ r.1 with segments := s, segmentSet := o }, r.2) := by
  have hvalue : ({ LR with segments := s, segmentSet := o } : LiveRange).valueFor Def ForVNI =
      ({ (LR.valueFor Def ForVNI).1 with segments := s, segmentSet := o },
        (LR.valueFor Def ForVNI).2) := by
    cases ForVNI <;> rfl
  unfold createDeadDef
  by_cases hdead : isDead Def
  · rw [if_pos hdead, if_pos hdead]
    rfl
  · rw [if_neg hdead, if_neg hdead, hvalue]
    cases hdrop : coll.drop (M.find coll Def) with
    | nil =>
      simp only [hdrop]
      rfl
    | cons S after =>
      simp only [hdrop]
      split_ifs <;> rfl

theorem inSet_setColl (hset : LR.segmentSet = none) (coll : List Segment) :
    (LR.setColl coll).inSet = { LR with segments := [], segmentSet := some coll } := by
  unfold setColl
  rw [hset]
  rfl

theorem setColl_segmentSet (hset : LR.segmentSet = none) (coll : List Segment) :
    (LR.setColl coll).segmentSet = none := by
  unfold setColl
  rw [hset]

theorem step_inSet {c : Call} (h : LR.Good) (hset : LR.segmentSet = none) (hallowed : LR.Allowed c)
    (hdefs : LR.DefsApart c) (hbuilds : c.BuildsSet) :
    ∃ LR' r, LR.step c = some (LR', r) ∧ LR.inSet.step c = some (LR'.inSet, r) ∧
      LR'.segmentSet = none := by
  have hcoll := coll_of_segmentSet hset
  have hvector : CalcLiveRangeUtilVector.Positions LR.coll := positions_vector h.coalesced
  have hinset : CalcLiveRangeUtilSet.Positions LR.coll := positions_set h.coalesced
  have himpl : LR.impl = CalcLiveRangeUtilVector := by
    unfold impl
    rw [hset]
  have hset_coll : LR.inSet.coll = LR.coll := hcoll.symm
  have hset_impl : LR.inSet.impl = CalcLiveRangeUtilSet := rfl
  have hset_setColl : ∀ coll', LR.inSet.setColl coll' = (LR.setColl coll').inSet :=
    fun coll' => (inSet_setColl hset coll').symm
  cases c with
  | addSegment S =>
    obtain ⟨hS, -, hcompat⟩ := hallowed
    obtain ⟨coll', hadd, -⟩ := addSegment_spec h.coalesced hS hcompat
    refine ⟨LR.setColl coll', ⟨none, false⟩, ?_, ?_, setColl_segmentSet hset _⟩
    · simp only [step, himpl, hadd _ hvector, map_some]
    · simp only [step, hset_coll, hset_impl, hadd _ hinset, map_some, hset_setColl]
  | extendInBlock StartIdx Use =>
    obtain ⟨coll', v, _, hundefs, -⟩ := extendInBlockUndefs_spec h.coalesced [] hallowed
    have hextend : ∀ M : Impl, M.Positions LR.coll →
        extendInBlock M LR.coll StartIdx Use = some (coll', v) := by
      intro M hM
      have hmap := hundefs M hM
      rw [extendInBlockUndefs_nil] at hmap
      obtain ⟨r, hr, heq⟩ := map_eq_some_iff.mp hmap
      cases heq
      exact hr
    refine ⟨LR.setColl coll', ⟨v, false⟩, ?_, ?_, setColl_segmentSet hset _⟩
    · simp only [step, himpl, hextend _ hvector, map_some]
    · simp only [step, hset_coll, hset_impl, hextend _ hinset, map_some, hset_setColl]
  | extendInBlockUndefs Undefs StartIdx Use =>
    obtain ⟨coll', v, undef, hextend, -⟩ :=
      extendInBlockUndefs_spec h.coalesced Undefs hallowed
    refine ⟨LR.setColl coll', ⟨v, undef⟩, ?_, ?_, setColl_segmentSet hset _⟩
    · simp only [step, himpl, hextend _ hvector, map_some]
    · simp only [step, hset_coll, hset_impl, hextend _ hinset, map_some, hset_setColl]
  | createDeadDef Def =>
    obtain ⟨LR', coll', v, hcreate, -, hsame, -⟩ := deadDef_spec h hallowed hdefs (by simp)
    have hset' := hsame.trans hset
    have hcreate' := createDeadDef_with CalcLiveRangeUtilSet LR LR.coll []
      (some LR.segments) Def none
    rw [hcreate _ hinset] at hcreate'
    refine ⟨LR'.setColl coll', ⟨some v, false⟩, ?_, ?_, setColl_segmentSet hset' _⟩
    · simp only [step, himpl, hcreate _ hvector, map_some]
    · rw [inSet_setColl hset']
      simp only [step, hset_coll, hset_impl]
      exact congrArg (Option.map _) hcreate'
  | createDeadDefOf VNI =>
    obtain ⟨hVNI, Def, hDef, hallowed⟩ := hallowed
    obtain ⟨LR', coll', v, hcreate, -, hsame, -⟩ :=
      deadDef_spec h hallowed (hdefs Def hDef) (by simpa using hVNI)
    have hset' := hsame.trans hset
    have hcreate' := createDeadDef_with CalcLiveRangeUtilSet LR LR.coll []
      (some LR.segments) Def (some VNI)
    rw [hcreate _ hinset] at hcreate'
    refine ⟨LR'.setColl coll', ⟨some v, false⟩, ?_, ?_, setColl_segmentSet hset' _⟩
    · simp only [step, hDef, bind_some, himpl, hcreate _ hvector, map_some]
    · rw [inSet_setColl hset']
      have hDef' : (LR.inSet.info VNI).defn = some Def := hDef
      simp only [step, hset_coll, hset_impl, hDef', bind_some]
      exact congrArg (Option.map _) hcreate'
  | removeSegment Start End RemoveDeadValNo => exact absurd hbuilds id
  | removeValNo ValNo => exact absurd hbuilds id
  | MergeValueNumberInto V1 V2 => exact absurd hbuilds id

theorem run_inSet {calls : List Call} (h : LR.Good) (hset : LR.segmentSet = none)
    (hallowed : LR.AllAllowed calls) (hdefs : LR.AllDefsApart calls)
    (hbuilds : ∀ c ∈ calls, c.BuildsSet) :
    ∃ LR', LR.run calls = some LR' ∧ LR.inSet.run calls = some LR'.inSet ∧
      LR'.segmentSet = none := by
  induction calls generalizing LR with
  | nil => exact ⟨LR, rfl, rfl, hset⟩
  | cons c calls ih =>
    obtain ⟨LR₁, r, hstep, hstep_set, hset₁⟩ :=
      step_inSet h hset hallowed.1 hdefs.1 (hbuilds c mem_cons_self)
    obtain ⟨LR₂, r₂, hstepped⟩ := step_spec h hallowed.1 hdefs.1
    obtain ⟨rfl, rfl⟩ := Prod.mk.inj (Option.some.inj (hstep.symm.trans hstepped.step))
    have hmem : (LR₁, r) ∈ LR.step c := hstep
    obtain ⟨LR', hrun, hrun_set, hset'⟩ := ih hstepped.good hset₁ (hallowed.2 _ hmem)
      (hdefs.2 _ hmem) fun c hc => hbuilds c (mem_cons_of_mem _ hc)
    refine ⟨LR', ?_, ?_, hset'⟩
    · unfold run at hrun ⊢
      rw [foldlM_cons, hstep]
      exact hrun
    · unfold run at hrun_set ⊢
      rw [foldlM_cons, hstep_set]
      exact hrun_set

theorem flush_inSet (hset : LR.segmentSet = none) : LR.inSet.flushSegmentSet = some LR := by
  unfold flushSegmentSet inSet
  simp only [if_true]
  rw [← hset]

theorem LiveRange.verify.good (h : LR.verify) (hvalues : ∀ V ∈ LR.valnos, V < LR.next)
    (hset : LR.segmentSet = none ∨ LR.segmentSet = some [] ∧ LR.segments = []) : LR.Good := by
  rcases hset with hset | ⟨hset, -⟩
  · have hcoll := coll_of_segmentSet hset
    refine ⟨?_, ?_⟩
    · rw [hcoll]
      exact coalesced_of_isChain h.nonempty h.next
    · rw [hcoll]
      exact fun I hI => hvalues I.value (mem_of_getElem? (h.valno I hI))
  · have hcoll : LR.coll = [] := by
      unfold LiveRange.coll
      rw [hset]
      rfl
    refine ⟨?_, ?_⟩
    · rw [hcoll]
      exact coalesced_nil
    · simp [hcoll]

/-- The updates of a range are exact in both representations, when no value is live up to the slot
at which a dead def defines it, and a range that used the set has the segments of the one that used
the vector once they are moved there. -/
theorem updates_exact (hverify : LR.verify) (hvalues : ∀ V ∈ LR.valnos, V < LR.next)
    (hset : LR.segmentSet = none ∨ LR.segmentSet = some [] ∧ LR.segments = [])
    {calls : List Call} (hallowed : LR.AllAllowed calls) (hdefs : LR.AllDefsApart calls) :
    LR.ExactRun calls ∧ (LR.segmentSet = none → LR.segments = [] → (∀ c ∈ calls, c.BuildsSet) →
        ∃ LR', LR.run calls = some LR' ∧
          (({ LR with segmentSet := some [] } : LiveRange).run calls).bind flushSegmentSet =
            some LR') := by
  have hgood := hverify.good hvalues hset
  refine ⟨hallowed.exact hgood hdefs, fun hnone hempty hbuilds => ?_⟩
  obtain ⟨LR', hrun, hrun_set, hset'⟩ := run_inSet hgood hnone hallowed hdefs hbuilds
  have hinSet : ({ LR with segmentSet := some [] } : LiveRange) = LR.inSet := by
    unfold inSet
    rw [← hempty]
  refine ⟨LR', hrun, ?_⟩
  rw [hinSet, hrun_set]
  exact flush_inSet hset'

/-- An empty range, for which one value was allocated that is defined at the slot 18. -/
def oneValue : LiveRange where
  segments := []
  valnos := [0]
  segmentSet := none
  info := fun _ => ⟨0, some 18⟩
  next := 1

theorem oneValue_verify : oneValue.verify where
  nonempty := by simp [oneValue]
  valno := by simp [oneValue]
  next := by simp [oneValue]

/-- A def of the value, and a use that it reaches. -/
def defThenUse : List Call := [.createDeadDefOf 0, .extendInBlock 16 24]

/-- The value is made live from its def to the use. -/
theorem updates_exact_defThenUse : oneValue.ExactRun defThenUse ∧
    ∃ LR', oneValue.run defThenUse = some LR' ∧
      (({ oneValue with segmentSet := some [] } : LiveRange).run defThenUse).bind flushSegmentSet =
        some LR' := by
  have hdef : DefAllowed oneValue oneValue.coll 18 (some 0) := by
    refine ⟨by decide, ?_⟩
    simp [LiveRange.coll, oneValue]
  have hallowed : oneValue.AllAllowed defThenUse := by
    refine ⟨⟨by decide, 18, rfl, hdef⟩, fun r hr => ?_⟩
    exact ⟨show 16 < 24 by omega, fun _ _ => trivial⟩
  have hdefs : oneValue.AllDefsApart defThenUse := by
    refine ⟨fun Def _ => ?_, fun r hr => ?_⟩
    · simp [StartsAtDef, LiveRange.coll, oneValue]
    · exact ⟨trivial, fun _ _ => trivial⟩
  have hexact := updates_exact oneValue_verify (by simp [oneValue]) (.inl rfl) hallowed hdefs
  refine ⟨hexact.1, hexact.2 rfl rfl fun c hc => ?_⟩
  rcases List.mem_cons.mp hc with rfl | hc
  · trivial
  · obtain rfl := List.mem_singleton.mp hc
    trivial

/-- A segment that ends where its value is defined, and a dead def of the value. -/
def useThenDef : List Call := [.addSegment ⟨0, 18, 0⟩, .createDeadDefOf 0]

/-- The dead def adds a segment of the value next to the other one, which `verify` rejects. -/
theorem not_exact_useThenDef :
    oneValue.verify ∧ oneValue.AllAllowed useThenDef ∧ ¬ oneValue.ExactRun useThenDef ∧
      ∃ LR', oneValue.run useThenDef = some LR' ∧ ¬ LR'.verify := by
  have hadd : oneValue.step (.addSegment ⟨0, 18, 0⟩) =
      some ({ oneValue with segments := [⟨0, 18, 0⟩] }, ⟨none, false⟩) := rfl
  have hdead : LiveRange.step { oneValue with segments := [⟨0, 18, 0⟩] } (.createDeadDefOf 0) =
      some ({ oneValue with segments := [⟨0, 18, 0⟩, ⟨18, 19, 0⟩] }, ⟨some 0, false⟩) := rfl
  refine ⟨oneValue_verify, ⟨⟨by decide, by decide, ?_⟩, fun r hr => ?_⟩, ?_, ?_⟩
  · simp [LiveRange.coll, oneValue]
  · obtain rfl := Option.some.inj (hadd.symm.trans hr)
    refine ⟨⟨by decide, 18, rfl, by decide, ?_⟩, fun _ _ => trivial⟩
    simp [LiveRange.coll, oneValue]
  · rintro ⟨-, LR₁, r₁, hstep₁, -, -, LR₂, r₂, hstep₂, -, hcoalesced⟩
    obtain ⟨rfl, rfl⟩ := Prod.mk.inj (Option.some.inj (hadd.symm.trans hstep₁))
    obtain ⟨rfl, rfl⟩ := Prod.mk.inj (Option.some.inj (hdead.symm.trans hstep₂))
    obtain ⟨-, hapart, -⟩ := coalesced_cons.mp hcoalesced
    exact (hapart _ mem_cons_self).2 rfl rfl
  · refine ⟨{ oneValue with segments := [⟨0, 18, 0⟩, ⟨18, 19, 0⟩] }, ?_, fun hverify => ?_⟩
    · rfl
    · exact (List.isChain_cons_cons.mp hverify.next).1.2 rfl rfl

end Zapcc.LiveInterval
