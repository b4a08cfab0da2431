import Zapcc.CodeGen.LiveRangeSegments

/-!
# Defs and uses in a live range

`extendInBlockUndefs_spec` says which value reaches a use, and `createDeadDef_spec` which value is
defined by a dead def. A dead def starts a new segment: when the value that it defines is live up
to the slot of the def, the new segment would touch the old one, which `StartsAtDef` rules out.
-/

namespace Zapcc.LiveInterval

open Intervals SlotIndex List

variable {coll : List Segment}

/-- The last slot before `Use` where the range is live is `p`, with the value `v`. -/
structure LiveBefore (coll : List Segment) (StartIdx Use p v : Nat) : Prop where
  start : StartIdx ≤ p
  before : p < Use
  covers : Covers coll p v
  last : ∀ q w, p < q → q < Use → ¬ Covers coll q w

/-- The range is not live from `StartIdx` on before `Use`. -/
def NotLive (coll : List Segment) (StartIdx Use : Nat) : Prop :=
  ∀ q w, StartIdx ≤ q → q < Use → ¬ Covers coll q w

variable {after : List Segment} {Use : Nat}

theorem notLive_of_end {P : List Segment} {I : Segment}
    (h : Coalesced (P ++ I :: after)) (hafter : ∀ J ∈ after, Use ≤ J.start) :
    NotLive (P ++ I :: after) I.end_ Use := by
  rintro q w hq hlt ⟨J, hJ, hstart, hend, -⟩
  obtain ⟨-, hI, hPI⟩ := coalesced_append.mp h
  rcases mem_append.mp hJ with hJ | hJ
  · have hle := (hPI J hJ I mem_cons_self).1
    have hne := h.nonempty I (by simp)
    omega
  · rcases mem_cons.mp hJ with rfl | hJ
    · omega
    · have hge := hafter J hJ
      omega

theorem liveBefore_of_end {P : List Segment} {I : Segment} {StartIdx : Nat}
    (h : Coalesced (P ++ I :: after)) (hI : I.start < Use) (hafter : ∀ J ∈ after, Use ≤ J.start)
    (hstart : StartIdx < I.end_) (hUse : StartIdx < Use) :
    LiveBefore (P ++ I :: after) StartIdx Use (min I.end_ Use - 1) I.value := by
  have hne := h.nonempty I (by simp)
  refine ⟨by omega, by omega, ⟨I, by simp, by omega, by omega, rfl⟩, fun q w hq hlt => ?_⟩
  exact notLive_of_end h hafter q w (by omega) hlt

theorem extend_to_use {P : List Segment} {I : Segment}
    (h : Coalesced (P ++ I :: after)) (hafter : ∀ J ∈ after, Use ≤ J.start)
    (hend : I.end_ < Use) :
    ∃ I' after', extendSegmentEndTo I after Use = some (I', after') ∧ I'.value = I.value ∧
      Added (P ++ I :: after) (min I.end_ Use - 1) Use I.value (P ++ I' :: after') := by
  have hne := h.nonempty I (by simp)
  obtain ⟨I', after', hextend, hI'⟩ := extendSegmentEndTo_spec Use
    (coalesced_append.mp h).2.1 fun J hJ hlt => absurd (hafter J hJ) (not_le.mpr hlt)
  obtain ⟨hcoalesced, hcovers⟩ := hI'.within h
  refine ⟨I', after', hextend, hI'.value, hcoalesced, fun x w => ?_⟩
  rw [hcovers]
  constructor
  · rintro (hw | ⟨hx, hlt, hw⟩)
    · exact .inl hw
    · by_cases hxI : x < I.end_
      · exact .inl ⟨I, by simp, hx, hxI, hw.symm⟩
      · exact .inr ⟨by omega, hlt, hw⟩
  · rintro (hw | ⟨hx, hlt, hw⟩)
    · exact .inl hw
    · exact .inr ⟨by omega, hlt, hw⟩

theorem added_of_covers {a b V : Nat} (h : Coalesced coll)
    (hcovers : ∀ x, a ≤ x → x < b → Covers coll x V) : Added coll a b V coll := by
  refine ⟨h, fun x w => ⟨.inl, ?_⟩⟩
  rintro (hw | ⟨hx, hlt, rfl⟩)
  · exact hw
  · exact hcovers x hx hlt

theorem use_position (h : Coalesced coll) (hUse : 0 < Use) :
    ∃ before after, coll = before ++ after ∧ (∀ M : Impl, M.Positions coll →
        M.findInsertPos coll ⟨getPrevSlot Use, Use, 0⟩ = before.length) ∧
      (∀ I ∈ before, I.start < Use) ∧ ∀ I ∈ after, Use ≤ I.start := by
  obtain ⟨before, after, hsplit, hidx, hbefore, hafter⟩ := split_start h (Use - 1)
  refine ⟨before, after, hsplit, fun M hM => (hM.findInsertPos _).trans hidx, fun I hI => ?_,
    fun I hI => ?_⟩
  · have hle := hbefore I hI
    omega
  · have hlt := hafter I hI
    omega

theorem notLive_of_after {StartIdx : Nat}
    (hafter : ∀ J ∈ after, Use ≤ J.start) : NotLive after StartIdx Use := by
  rintro q w - hlt ⟨J, hJ, hstart, -⟩
  have hge := hafter J hJ
  omega

theorem extendInBlockUndefs_spec (h : Coalesced coll) (Undefs : List Nat) {StartIdx : Nat}
    (hUse : StartIdx < Use) :
    ∃ coll' r undef, (∀ M : Impl, M.Positions coll →
        extendInBlockUndefs M coll Undefs StartIdx Use = some (coll', r, undef)) ∧
      ((r = none ∧ coll' = coll ∧ NotLive coll StartIdx Use) ∨
        ∃ p v, LiveBefore coll StartIdx Use p v ∧ ((r = none ∧ coll' = coll ∧ undef = true ∧
              LiveRange.isUndefIn Undefs (p + 1) (getPrevSlot Use) = true) ∨
            (r = some v ∧ Added coll p Use v coll' ∧ undef = false ∧
              LiveRange.isUndefIn Undefs (p + 1) (getPrevSlot Use) = false))) := by
  by_cases hnil : coll = []
  · refine ⟨coll, none, false, fun M _ => by rw [extendInBlockUndefs, if_pos hnil],
      .inl ⟨rfl, rfl, ?_⟩⟩
    rw [hnil]
    exact fun q w _ _ => covers_nil q w
  obtain ⟨before, after, hsplit, hpos, hbefore, hafter⟩ := use_position h (show 0 < Use by omega)
  obtain ⟨htake, hdrop⟩ := parts_at hsplit
  rcases eq_nil_or_concat' before with rfl | ⟨P, I, rfl⟩
  · refine ⟨coll, none, LiveRange.isUndefIn Undefs StartIdx (getPrevSlot Use), fun M hM => ?_,
      .inl ⟨rfl, rfl, ?_⟩⟩
    · unfold extendInBlockUndefs
      rw [if_neg hnil]
      simp only [hpos M hM, htake]
      rfl
    · rw [hsplit]
      exact notLive_of_after hafter
  · have hreverse : (P ++ [I]).reverse = I :: P.reverse := by simp
    have hI := hbefore I (by simp)
    rw [append_assoc, singleton_append] at hsplit
    have hcoll := h
    rw [hsplit] at hcoll
    by_cases hstart : I.end_ ≤ StartIdx
    · refine ⟨coll, none, LiveRange.isUndefIn Undefs StartIdx (getPrevSlot Use), fun M hM => ?_,
        .inl ⟨rfl, rfl, ?_⟩⟩
      · unfold extendInBlockUndefs
        rw [if_neg hnil]
        simp only [hpos M hM, htake, hreverse]
        rw [if_pos hstart]
      · rw [hsplit]
        exact fun q w hq hlt => notLive_of_end hcoll hafter q w (by omega) hlt
    · have hlive := liveBefore_of_end hcoll hI hafter (not_le.mp hstart) hUse
      rw [← hsplit] at hlive
      by_cases hend : I.end_ < Use
      · have hp : min I.end_ Use - 1 + 1 = I.end_ := by omega
        by_cases hundef : LiveRange.isUndefIn Undefs I.end_ (getPrevSlot Use) = true
        · refine ⟨coll, none, true, fun M hM => ?_, .inr ⟨_, _, hlive,
            .inl ⟨rfl, rfl, rfl, by rw [hp]; exact hundef⟩⟩⟩
          unfold extendInBlockUndefs
          rw [if_neg hnil]
          simp only [hpos M hM, htake, hreverse]
          rw [if_neg hstart, if_pos hend, if_pos hundef]
        · obtain ⟨I', after', hextend, hvalue, hadded⟩ := extend_to_use hcoll hafter hend
          rw [← hsplit] at hadded
          refine ⟨P ++ I' :: after', some I.value, false, fun M hM => ?_, .inr ⟨_, _, hlive,
            .inr ⟨rfl, hadded, rfl, by rw [hp]; simpa using hundef⟩⟩⟩
          unfold extendInBlockUndefs
          rw [if_neg hnil]
          simp only [hpos M hM, htake, hdrop, hreverse]
          rw [if_neg hstart, if_pos hend, if_neg hundef, hextend, Option.map_some,
            reverse_reverse, hvalue]
      · refine ⟨coll, some I.value, false, fun M hM => ?_, .inr ⟨_, _, hlive,
          .inr ⟨rfl, added_of_covers h fun x hx hlt => ?_, rfl, ?_⟩⟩⟩
        · unfold extendInBlockUndefs
          rw [if_neg hnil]
          simp only [hpos M hM, htake, hreverse]
          rw [if_neg hstart, if_neg hend]
        · rw [hsplit]
          exact ⟨I, by simp, by omega, by omega, rfl⟩
        · unfold LiveRange.isUndefIn
          rw [any_eq_false]
          intro u _
          rw [Bool.and_eq_true, decide_eq_true_iff, decide_eq_true_iff]
          unfold getPrevSlot
          omega

theorem extendInBlockUndefs_nil (M : Impl) (StartIdx Use : Nat) :
    extendInBlockUndefs M coll [] StartIdx Use =
      (extendInBlock M coll StartIdx Use).map fun r => (r.1, r.2, false) := by
  unfold extendInBlockUndefs extendInBlock
  simp only [LiveRange.isUndefIn, any_nil, Bool.false_eq_true, if_false]
  split_ifs
  · rfl
  split
  · rfl
  · split_ifs <;> simp [Function.comp_def]

theorem LiveRange.step_extendInBlockUndefs_nil (LR : LiveRange) (StartIdx Use : Nat) :
    LR.step (.extendInBlockUndefs [] StartIdx Use) = LR.step (.extendInBlock StartIdx Use) := by
  rw [step, step, extendInBlockUndefs_nil, Option.map_map]
  rfl

/-- What `createDeadDef` asserts: `Def` is not a dead slot, and the first segment that ends after it
starts in a later instruction, or is defined by the same instruction, as the value `ForVNI` if one
is given. -/
def DefAllowed (LR : LiveRange) (coll : List Segment) (Def : Nat) (ForVNI : Option Nat) : Prop :=
  ¬ isDead Def ∧ ∀ S ∈ coll.find? fun T => Def < T.end_,
    (isSameInstr Def S.start ∧ (ForVNI = none ∨ ForVNI = some S.value) ∧
      (LR.info S.value).defn = some S.start) ∨ isEarlierInstr Def S.start

/-- The value that the range gets or has at `Def`, unless it is a new one. -/
def definedValue (coll : List Segment) (Def : Nat) (ForVNI : Option Nat) : Option Nat :=
  match coll.find? fun T => Def < T.end_ with
  | none => ForVNI
  | some S => if isSameInstr Def S.start then some S.value else ForVNI

/-- The value that is defined is not live up to the slot of its def. -/
def StartsAtDef (coll : List Segment) (Def : Nat) (ForVNI : Option Nat) : Prop :=
  ∀ I ∈ coll, I.end_ = Def → definedValue coll Def ForVNI ≠ some I.value

/-- The value defined by the instruction was found: it is live from the earlier slot on. -/
structure FoundDef (LR : LiveRange) (coll : List Segment) (Def : Nat) (ForVNI : Option Nat)
    (LR' : LiveRange) (coll' : List Segment) (v x : Nat) : Prop where
  sameInstr : isSameInstr Def x
  given : ForVNI = none ∨ ForVNI = some v
  covers : Covers coll (max Def x) v
  defn : (LR.info v).defn = some x
  added : Added coll (min Def x) x v coll'
  info : (LR'.info v).defn = some (min Def x)
  same : LR' = LR ∨ LR' = LR.setInfo v { LR.info v with defn := some (min Def x) }

/-- A value was added that is live from `Def` to the end of its instruction. -/
structure NewDef (LR : LiveRange) (coll : List Segment) (Def : Nat) (ForVNI : Option Nat)
    (LR' : LiveRange) (coll' : List Segment) (v : Nat) : Prop where
  free : ∀ x w, isSameInstr Def x → Def ≤ x → ¬ Covers coll x w
  added : Added coll Def (getDeadSlot Def) v coll'
  value : (ForVNI = some v ∧ LR' = LR) ∨ (ForVNI = none ∧ (LR', v) = LR.getNextValue Def)

theorem find_end {before : List Segment} {Def : Nat} (hbefore : ∀ I ∈ before, I.end_ ≤ Def)
    (hafter : ∀ I ∈ after, Def < I.end_) :
    ((before ++ after).find? fun T => Def < T.end_) = after.head? := by
  rw [find?_append, find?_eq_none.mpr fun I hI => by simpa using hbefore I hI]
  cases after with
  | nil => rfl
  | cons S after => simp [hafter S mem_cons_self]

theorem added_behind {before : List Segment} {Def End V : Nat}
    (h : Coalesced (before ++ after)) (hlt : Def < End) (hbefore : ∀ I ∈ before, I.end_ ≤ Def)
    (hV : ∀ I ∈ before ++ after, I.end_ = Def → V ≠ I.value) (hlater : ∀ S ∈ after, End < S.start) :
    Added (before ++ after) Def End V (before ++ ⟨Def, End, V⟩ :: after) := by
  have hinsert := insert_between (S := ⟨Def, End, V⟩) h hlt
    (fun I hI => ⟨hbefore I hI, fun heq hvalue =>
      hV I (mem_append_left _ hI) heq hvalue.symm⟩)
    (fun S hS => ⟨(hlater S hS).le, fun heq => absurd heq (hlater S hS).ne⟩)
  exact ⟨hinsert.1, hinsert.2⟩

theorem not_covers_sameInstr {before : List Segment} {Def x w : Nat}
    (hbefore : ∀ I ∈ before, I.end_ ≤ Def) (hlater : ∀ S ∈ after, getDeadSlot Def < S.start)
    (hsame : isSameInstr Def x) (hle : Def ≤ x) : ¬ Covers (before ++ after) x w := by
  intro hcovers
  obtain ⟨T, hT, hstart, hend, -⟩ := hcovers
  rcases mem_append.mp hT with hT | hT
  · have hle' := hbefore T hT
    omega
  · have hlt := hlater T hT
    unfold isSameInstr getDeadSlot listEntry at *
    omega

theorem createDeadDef_spec (h : Coalesced coll) {LR : LiveRange} {Def : Nat} {ForVNI : Option Nat}
    (hvalues : ∀ I ∈ coll, I.value < LR.next) (hallowed : DefAllowed LR coll Def ForVNI)
    (hstarts : StartsAtDef coll Def ForVNI) :
    ∃ LR' coll' v, (∀ M : Impl, M.Positions coll →
        createDeadDef M LR coll Def ForVNI = some (LR', coll', v)) ∧
      ((∃ x, FoundDef LR coll Def ForVNI LR' coll' v x) ∨
        NewDef LR coll Def ForVNI LR' coll' v) := by
  obtain ⟨before, after, hsplit, hidx, hbefore, hafter⟩ := split_end h Def
  obtain ⟨htake, hdrop⟩ := parts_at hsplit
  have hpos : ∀ M : Impl, M.Positions coll → M.find coll Def = before.length := fun M hM =>
    (hM.find Def).trans hidx
  obtain ⟨hdead, hfirst⟩ := hallowed
  have hfind : (coll.find? fun T => Def < T.end_) = after.head? := by
    rw [hsplit]
    exact find_end hbefore hafter
  unfold StartsAtDef definedValue at hstarts
  rw [hfind] at hfirst hstarts
  have hdeadslot : Def < getDeadSlot Def := by
    unfold isDead at hdead
    unfold getDeadSlot listEntry
    omega
  have hnew : ∀ V, (∀ I ∈ coll, I.end_ = Def → V ≠ I.value) →
      (∀ S ∈ after, getDeadSlot Def < S.start) →
      Added coll Def (getDeadSlot Def) V (before ++ ⟨Def, getDeadSlot Def, V⟩ :: after) := by
    intro V hV hlater
    rw [hsplit] at h hV ⊢
    exact added_behind h hdeadslot hbefore hV hlater
  -- the value of a new segment
  have hvalue : (ForVNI = some (LR.valueFor Def ForVNI).2 ∧ (LR.valueFor Def ForVNI).1 = LR) ∨
      (ForVNI = none ∧ LR.valueFor Def ForVNI = LR.getNextValue Def) := by
    cases ForVNI with
    | none => exact .inr ⟨rfl, rfl⟩
    | some V => exact .inl ⟨rfl, rfl⟩
  have hvalue_ne : (∀ I ∈ coll, I.end_ = Def → ForVNI ≠ some I.value) →
      ∀ I ∈ coll, I.end_ = Def → (LR.valueFor Def ForVNI).2 ≠ I.value := by
    intro hne I hI hend
    cases ForVNI with
    | none => exact (hvalues I hI).ne'
    | some V => exact fun heq => hne I hI hend (congrArg some heq)
  have hbefore_start : ∀ T ∈ before, T.start < Def := by
    intro T hT
    have hne := h.nonempty T (by rw [hsplit]; exact mem_append_left _ hT)
    have hle := hbefore T hT
    omega
  have hfree : (∀ S ∈ after, getDeadSlot Def < S.start) →
      ∀ x w, isSameInstr Def x → Def ≤ x → ¬ Covers coll x w := by
    intro hlater x w
    rw [hsplit]
    exact not_covers_sameInstr hbefore hlater
  cases after with
  | nil =>
    have hne := hvalue_ne (by simpa using hstarts)
    refine ⟨(LR.valueFor Def ForVNI).1,
      before ++ [⟨Def, getDeadSlot Def, (LR.valueFor Def ForVNI).2⟩],
      (LR.valueFor Def ForVNI).2, fun M hM => ?_,
      .inr ⟨hfree (by simp), hnew _ hne (by simp), hvalue⟩⟩
    unfold createDeadDef
    rw [if_neg hdead]
    simp only [hpos M hM, hdrop]
    rw [append_nil] at hsplit
    rw [hM.insertAtEnd _ (by rw [hsplit]; exact hbefore_start), hsplit]
  | cons S after =>
    have hSmem : S ∈ coll := by
      rw [hsplit]
      simp
    have hSend := hafter S mem_cons_self
    have hSne := h.nonempty S hSmem
    have hcase := hfirst S rfl
    simp only [head?_cons] at hstarts
    by_cases hsame : isSameInstr Def S.start
    · simp only [if_pos hsame] at hstarts
      have hallowed : (ForVNI = none ∨ ForVNI = some S.value) ∧
          (LR.info S.value).defn = some S.start := by
        rcases hcase with hcase | hcase
        · exact hcase.2
        · unfold isEarlierInstr at hcase
          unfold isSameInstr at hsame
          omega
      have hcovers : Covers coll (max Def S.start) S.value :=
        ⟨S, hSmem, by omega, by omega, rfl⟩
      by_cases hmin : min Def S.start ≠ S.start
      · have hapart : ∀ I ∈ before, Apart I { S with start := min Def S.start } := by
          intro I hI
          have hle := hbefore I hI
          refine ⟨show I.end_ ≤ min Def S.start by omega, fun heq hsame_value => ?_⟩
          replace heq : I.end_ = min Def S.start := heq
          refine hstarts I (by rw [hsplit]; exact mem_append_left _ hI) (by omega) ?_
          exact congrArg some hsame_value.symm
        have hgrown := grow_start (hsplit ▸ h) (Nat.min_le_right Def S.start) hapart
        rw [← hsplit] at hgrown
        refine ⟨_, before ++ { S with start := min Def S.start } :: after, S.value,
          fun M hM => ?_, .inl ⟨S.start, hsame, hallowed.1, hcovers, hallowed.2,
            ⟨hgrown.1, hgrown.2⟩, ?_, .inr rfl⟩⟩
        · unfold createDeadDef
          rw [if_neg hdead]
          simp only [hpos M hM, htake, hdrop]
          rw [if_pos hsame, if_pos hallowed, if_pos hmin]
        · simp [LiveRange.setInfo]
      · rw [not_not] at hmin
        refine ⟨LR, coll, S.value, fun M hM => ?_, .inl ⟨S.start, hsame, hallowed.1, hcovers,
          hallowed.2, added_of_covers h fun x hx hlt => by omega, by rw [hmin]; exact hallowed.2,
          .inl rfl⟩⟩
        unfold createDeadDef
        rw [if_neg hdead]
        simp only [hpos M hM, htake, hdrop]
        rw [if_pos hsame, if_pos hallowed, if_neg (not_not.mpr hmin)]
    · simp only [if_neg hsame] at hstarts
      have hearlier : isEarlierInstr Def S.start := by
        rcases hcase with hcase | hcase
        · exact absurd hcase.1 hsame
        · exact hcase
      have hlater : ∀ T ∈ S :: after, getDeadSlot Def < T.start := by
        have hS : getDeadSlot Def < S.start := by
          unfold isEarlierInstr getDeadSlot listEntry at *
          omega
        intro T hT
        rcases mem_cons.mp hT with rfl | hT
        · exact hS
        · have hle := (starts_mono h hsplit T hT).1
          omega
      refine ⟨(LR.valueFor Def ForVNI).1,
        before ++ ⟨Def, getDeadSlot Def, (LR.valueFor Def ForVNI).2⟩ :: S :: after,
        (LR.valueFor Def ForVNI).2, fun M hM => ?_,
        .inr ⟨hfree hlater, hnew _ (hvalue_ne hstarts) hlater, hvalue⟩⟩
      unfold createDeadDef
      rw [if_neg hdead]
      simp only [hpos M hM, htake, hdrop]
      rw [if_neg hsame, if_pos hearlier, hM.insert before (S :: after) _ hsplit hbefore_start
        fun T hT => ?_]
      have hlt := hlater T hT
      show Def < T.start
      omega

end Zapcc.LiveInterval
