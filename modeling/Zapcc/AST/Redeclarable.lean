import Zapcc.Library.LinkedList

/-!
# Redeclaration chains

Every declaration has a link and a pointer to the first declaration. The link of the first
declaration leads to the latest one, every other link to the previous declaration.
`WellFormed heap chain` says that the chain has exactly the declarations `chain`, the latest one
first, and `WellFormed.redecls_eq` that the iterator over the redeclarations enumerates them.
-/

namespace Zapcc.AST

open LinkedList List Function Option

/-- The tagged link of a declaration. A latest link that was never set stands for the
declaration itself. -/
inductive DeclLink (Decl : Type*) where
  | previous (d : Decl)
  | uninitializedLatest
  | knownLatest (d : Decl)
  deriving DecidableEq

namespace DeclLink

variable {Decl : Type*}

/-- Whether the link leads to the previous declaration. -/
def nextIsPrevious : DeclLink Decl → Bool
  | previous _ => true
  | uninitializedLatest => false
  | knownLatest _ => false

/-- Whether the link leads to the latest declaration. -/
def nextIsLatest (link : DeclLink Decl) : Bool := !link.nextIsPrevious

/-- The declaration that the link of `d` leads to. That the latest link is allocated here is not
visible later on. -/
def getNext (d : Decl) : DeclLink Decl → Decl
  | previous p => p
  | uninitializedLatest => d
  | knownLatest latest => latest

/-- Let the link lead to another previous declaration. It must be a link to a previous one. -/
def setPrevious (link : DeclLink Decl) (d : Decl) : Option (DeclLink Decl) :=
  if link.nextIsPrevious then some (previous d) else none

/-- Let the link lead to another latest declaration. It must be a link to a latest one. -/
def setLatest (link : DeclLink Decl) (d : Decl) : Option (DeclLink Decl) :=
  if link.nextIsLatest then some (knownLatest d) else none

/-- Turn the link into one to the latest declaration. -/
def setMostRecent (link : DeclLink Decl) (d : Decl) : Option (DeclLink Decl) :=
  if link.nextIsPrevious then some (knownLatest d) else link.setLatest d

theorem setMostRecent_eq (link : DeclLink Decl) (d : Decl) :
    link.setMostRecent d = some (knownLatest d) := by
  cases link with
  | previous _ | uninitializedLatest | knownLatest _ => rfl

end DeclLink

/-- What a declaration stores of its chain. -/
structure Redeclarable (Decl : Type*) where
  redeclLink : DeclLink Decl
  first : Decl
  deriving DecidableEq

/-- The redeclarable parts of all declarations. -/
abbrev Redeclarables (Decl : Type*) := Decl → Redeclarable Decl

namespace Redeclarables

variable {Decl : Type*} (heap : Redeclarables Decl)

/-- The declaration that the link leads to. -/
def getNextRedeclaration (d : Decl) : Decl := (heap d).redeclLink.getNext d

/-- The previous declaration, if there is one. -/
def getPreviousDecl (d : Decl) : Option Decl :=
  if (heap d).redeclLink.nextIsPrevious then some (heap.getNextRedeclaration d) else none

def getFirstDecl (d : Decl) : Decl := (heap d).first

/-- Whether this is the first declaration. -/
def isFirstDecl (d : Decl) : Bool := (heap d).redeclLink.nextIsLatest

def getMostRecentDecl (d : Decl) : Decl := heap.getNextRedeclaration (heap.getFirstDecl d)

variable [DecidableEq Decl]

/-- Change the first declaration of `d`. -/
def setFirstDecl (d first : Decl) : Redeclarables Decl :=
  update heap d { heap d with first := first }

def setLink (d : Decl) (link : DeclLink Decl) : Redeclarables Decl :=
  update heap d { heap d with redeclLink := link }

/-- Change the previous declaration of `d`. -/
def setPrevious (d previous : Decl) : Option (Redeclarables Decl) :=
  ((heap d).redeclLink.setPrevious previous).map (heap.setLink d)

/-- Let `d` know the latest declaration. -/
def setMostRecent (d mostRecent : Decl) : Option (Redeclarables Decl) :=
  ((heap d).redeclLink.setMostRecent mostRecent).map (heap.setLink d)

/-- The declarations that the iterator goes through from `current` on. There is no result when
it passes the first declaration twice, or when the fuel runs out. -/
def redeclsFrom (starter : Decl) : Nat → Bool → Decl → Option (List Decl)
  | 0, _, _ => none
  | fuel + 1, passedFirst, current =>
    if heap.isFirstDecl current && passedFirst then none
    else
      let next := heap.getNextRedeclaration current
      if next = starter then some [current]
      else
        (redeclsFrom starter fuel (passedFirst || heap.isFirstDecl current) next).map
          (current :: ·)

def redecls (fuel : Nat) (d : Decl) : Option (List Decl) := heap.redeclsFrom d fuel false d

end Redeclarables

/-- The declarations `chain`, the latest one first, form a redeclaration chain. -/
structure WellFormed {Decl : Type*} (heap : Redeclarables Decl) (chain : List Decl) : Prop where
  nodup : chain.Nodup
  linked : Linked heap.getPreviousDecl chain.head? chain
  first : ∀ d ∈ chain, chain.getLast? = some (heap.getFirstDecl d)
  latest : ∀ d ∈ chain.getLast?, chain.head? = some (heap.getNextRedeclaration d)

namespace Redeclarables

variable {Decl : Type*} {heap : Redeclarables Decl}

theorem isFirstDecl_iff (d : Decl) :
    heap.isFirstDecl d = true ↔ heap.getPreviousDecl d = none := by
  unfold isFirstDecl getPreviousDecl DeclLink.nextIsLatest
  cases (heap d).redeclLink.nextIsPrevious with
  | true | false => simp

theorem getNextRedeclaration_of_previous {d previous : Decl}
    (h : heap.getPreviousDecl d = some previous) : heap.getNextRedeclaration d = previous := by
  unfold getPreviousDecl at h
  split at h
  · exact some.inj h
  · cases h

theorem not_passesTwice {current first : Decl} {rest : List Decl} {passedFirst : Bool}
    (hfirst : ∀ d ∈ current :: rest, heap.isFirstDecl d = true → d = first)
    (hpassed : passedFirst = true → first ∉ current :: rest) :
    ¬ (heap.isFirstDecl current && passedFirst) = true := by
  intro htwice
  obtain ⟨hisFirst, hpassedFirst⟩ := Bool.and_eq_true_iff.mp htwice
  refine hpassed hpassedFirst ?_
  rw [← hfirst current mem_cons_self hisFirst]
  exact mem_cons_self

theorem getPreviousDecl_congr {heap' : Redeclarables Decl}
    (hlink : ∀ d, (heap' d).redeclLink = (heap d).redeclLink) :
    heap'.getPreviousDecl = heap.getPreviousDecl := by
  funext d
  unfold getPreviousDecl getNextRedeclaration
  rw [hlink d]

variable [DecidableEq Decl]

theorem setMostRecent_eq (d mostRecent : Decl) :
    heap.setMostRecent d mostRecent = some (heap.setLink d (.knownLatest mostRecent)) := by
  unfold setMostRecent
  rw [DeclLink.setMostRecent_eq]
  rfl

theorem setPrevious_eq {d p : Decl} (h : heap.getPreviousDecl d = some p) (previous : Decl) :
    heap.setPrevious d previous = some (heap.setLink d (.previous previous)) := by
  unfold getPreviousDecl at h
  split at h
  · next hlink =>
      unfold setPrevious DeclLink.setPrevious
      rw [if_pos hlink]
      rfl
  · cases h

theorem setLink_of_ne {d e : Decl} (he : e ≠ d) (link : DeclLink Decl) :
    heap.setLink d link e = heap e := update_of_ne he _ _

theorem getNextRedeclaration_setLink (d : Decl) (link : DeclLink Decl) :
    (heap.setLink d link).getNextRedeclaration =
      update heap.getNextRedeclaration d (link.getNext d) := by
  funext e
  unfold setLink getNextRedeclaration
  by_cases he : e = d
  · rw [he, update_self, update_self]
  · rw [update_of_ne he, update_of_ne he]

theorem getPreviousDecl_setLink (d : Decl) (link : DeclLink Decl) :
    (heap.setLink d link).getPreviousDecl = update heap.getPreviousDecl d
      (if link.nextIsPrevious then some (link.getNext d) else none) := by
  funext e
  unfold setLink getPreviousDecl getNextRedeclaration
  by_cases he : e = d
  · rw [he, update_self, update_self]
  · rw [update_of_ne he, update_of_ne he]

theorem getFirstDecl_setLink (d : Decl) (link : DeclLink Decl) :
    (heap.setLink d link).getFirstDecl = heap.getFirstDecl := by
  funext e
  unfold setLink getFirstDecl
  by_cases he : e = d
  · rw [he, update_self]
  · rw [update_of_ne he]

theorem redeclsFrom_eq {starter current first : Decl} {rest : List Decl} {passedFirst : Bool}
    {fuel : Nat}
    (hchain : (current :: rest).IsChain fun d e => heap.getNextRedeclaration d = e)
    (hlast : ∀ d ∈ (current :: rest).getLast?, heap.getNextRedeclaration d = starter)
    (hstarter : starter ∉ rest) (hnodup : (current :: rest).Nodup)
    (hfirst : ∀ d ∈ current :: rest, heap.isFirstDecl d = true → d = first)
    (hpassed : passedFirst = true → first ∉ current :: rest) (hfuel : rest.length < fuel) :
    heap.redeclsFrom starter fuel passedFirst current = some (current :: rest) := by
  induction rest generalizing current passedFirst fuel with
  | nil =>
    obtain ⟨fuel, rfl⟩ := Nat.exists_eq_succ_of_ne_zero (Nat.ne_zero_of_lt hfuel)
    unfold redeclsFrom
    rw [if_neg (not_passesTwice hfirst hpassed), if_pos (hlast current rfl)]
  | cons next rest ih =>
    obtain ⟨fuel, rfl⟩ := Nat.exists_eq_succ_of_ne_zero (Nat.ne_zero_of_lt hfuel)
    obtain ⟨hnext, hchain'⟩ := isChain_cons_cons.mp hchain
    obtain ⟨hnotMem, hnodup'⟩ := nodup_cons.mp hnodup
    obtain ⟨hstarter', hstarter''⟩ := ne_and_not_mem_of_not_mem_cons hstarter
    have hne : heap.getNextRedeclaration current ≠ starter := by
      rw [hnext]
      exact Ne.symm hstarter'
    have hpassed' : (passedFirst || heap.isFirstDecl current) = true →
        first ∉ next :: rest := by
      intro heither
      rcases Bool.or_eq_true_iff.mp heither with hpassedFirst | hisFirst
      · exact fun hmem => hpassed hpassedFirst (mem_cons_of_mem _ hmem)
      · rw [← hfirst current mem_cons_self hisFirst]
        exact hnotMem
    have hrest := ih hchain' hlast hstarter'' hnodup'
      (fun d hd => hfirst d (mem_cons_of_mem _ hd)) hpassed' (Nat.lt_of_succ_lt_succ hfuel)
    unfold redeclsFrom
    rw [if_neg (not_passesTwice hfirst hpassed), if_neg hne, hnext, hrest]
    rfl

end Redeclarables

namespace WellFormed

variable {Decl : Type*} {heap : Redeclarables Decl} {chain : List Decl}

theorem congr {heap' : Redeclarables Decl} (hchain : WellFormed heap chain)
    (heq : ∀ d ∈ chain, heap' d = heap d) : WellFormed heap' chain := by
  refine ⟨hchain.nodup, hchain.linked.congr fun d hd => ?_, fun d hd => ?_, fun d hd => ?_⟩
  · unfold Redeclarables.getPreviousDecl Redeclarables.getNextRedeclaration
    rw [heq d hd]
  · unfold Redeclarables.getFirstDecl
    rw [heq d hd]
    exact hchain.first d hd
  · unfold Redeclarables.getNextRedeclaration
    rw [heq d (mem_of_mem_getLast? hd)]
    exact hchain.latest d hd

theorem singleton {d : Decl} (h : heap d = ⟨.knownLatest d, d⟩) : WellFormed heap [d] := by
  refine ⟨nodup_singleton d, .cons ?_, fun e he => ?_, fun e he => ?_⟩
  · unfold Redeclarables.getPreviousDecl
    rw [h]
    exact .nil
  · rw [mem_singleton.mp he]
    unfold Redeclarables.getFirstDecl
    rw [h]
    rfl
  · have he' : d = e := some.inj he
    subst he'
    unfold Redeclarables.getNextRedeclaration
    rw [h]
    rfl

theorem getMostRecentDecl_eq (hchain : WellFormed heap chain) {d : Decl} (hd : d ∈ chain) :
    chain.head? = some (heap.getMostRecentDecl d) :=
  hchain.latest _ (hchain.first d hd)

theorem eq_first (hchain : WellFormed heap chain) {first d : Decl}
    (hfirst : chain.getLast? = some first) (hd : d ∈ chain) (hisFirst : heap.isFirstDecl d = true) :
    d = first := by
  obtain ⟨later, earlier, rfl⟩ := append_of_mem hd
  have hlinked := hchain.linked.suffix
  rw [(Redeclarables.isFirstDecl_iff d).mp hisFirst] at hlinked
  cases hlinked with
  | nil => simpa using hfirst

variable [DecidableEq Decl]

theorem redecls_eq {later earlier : List Decl} {d : Decl}
    (hchain : WellFormed heap (later ++ d :: earlier)) {fuel : Nat}
    (hfuel : (later ++ d :: earlier).length ≤ fuel) :
    heap.redecls fuel d = some (d :: earlier ++ later) := by
  have hprevious : (later ++ d :: earlier).IsChain fun d e => heap.getNextRedeclaration d = e :=
    hchain.linked.isChain.imp fun _ _ => Redeclarables.getNextRedeclaration_of_previous
  obtain ⟨hlater, hearlier, hjoin⟩ := isChain_append.mp hprevious
  obtain ⟨first, hfirst⟩ : ∃ first, (d :: earlier).getLast? = some first :=
    ⟨_, getLast?_eq_some_getLast (cons_ne_nil _ _)⟩
  have hfirst' : (later ++ d :: earlier).getLast? = some first := by
    rw [getLast?_append, hfirst]
    rfl
  have hlatest := hchain.latest first hfirst'
  -- the chain in the order of the iterator
  have hperm : (d :: earlier ++ later).Perm (later ++ d :: earlier) := perm_append_comm
  have hnodup : (d :: (earlier ++ later)).Nodup := hperm.nodup_iff.mpr hchain.nodup
  refine Redeclarables.redeclsFrom_eq (hearlier.append hlater ?_) (fun e he => ?_)
    (nodup_cons.mp hnodup).1 hnodup
    (fun e he => hchain.eq_first hfirst' (hperm.mem_iff.mp he)) Bool.noConfusion ?_
  · intro e he latest hlatest'
    rw [hfirst] at he
    cases he
    rw [head?_append, hlatest'] at hlatest
    exact (some.inj hlatest).symm
  · change e ∈ (d :: earlier ++ later).getLast? at he
    cases hcase : later.getLast? with
    | none =>
      rw [getLast?_eq_none_iff.mp hcase] at he hlatest
      rw [append_nil, hfirst] at he
      cases he
      exact (some.inj hlatest).symm
    | some last =>
      rw [getLast?_append, hcase] at he
      cases he
      exact hjoin _ hcase d rfl
  · rw [← hperm.length_eq, cons_append, length_cons] at hfuel
    exact hfuel

end WellFormed

end Zapcc.AST
