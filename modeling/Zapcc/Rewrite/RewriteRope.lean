import Zapcc.Rewrite.RopeIterator

/-!
# The rope as a string

`RewriteRope` copies each text that is inserted into a buffer that its pieces share. The main result
is `rope_correct_iff`: along every run with arguments in range, the rope is the string exactly when
no step removes everything while the root is an interior node, and no text is so long that the
offset in the buffer wraps around.
-/

namespace Zapcc.Rewrite

open Segments List Option

def AllocChunkSize : Nat := 4080

/-- `RewriteRope`, with the strings it has allocated. -/
structure RewriteRope where
  Chunks : RopePieceBTree
  strings : Strings
  AllocBuffer : Option Nat
  AllocOffs : Nat

namespace RewriteRope

def new : RewriteRope := ⟨RopePieceBTree.new, [], none, AllocChunkSize⟩

def size (r : RewriteRope) : Nat := r.Chunks.size

/-- The bytes from `begin` to `end`. -/
def bytes (r : RewriteRope) (fuel : Nat) : Option (List UInt8) := do
  let it ← r.Chunks.begin
  r.Chunks.readFrom r.strings fuel it

/-- `MakeRopeString`, for a text of less than `2 ^ 32` bytes. There is no result when it writes
outside of the buffer. -/
def MakeRopeString (r : RewriteRope) (text : List UInt8) : Option (RopePiece × RewriteRope) :=
  let Len := text.length
  if (r.AllocOffs + Len) % 2 ^ 32 ≤ AllocChunkSize then do
    let AllocBuffer ← r.AllocBuffer
    let data ← r.strings[AllocBuffer]?
    if AllocChunkSize < r.AllocOffs + Len then none
    else
      let AllocOffs := r.AllocOffs + Len
      let strings := r.strings.set AllocBuffer (data.take r.AllocOffs ++ text)
      some (⟨AllocBuffer, AllocOffs - Len, AllocOffs⟩,
        { r with strings := strings, AllocOffs := AllocOffs })
  else if AllocChunkSize < Len then
    some (⟨r.strings.length, 0, Len⟩, { r with strings := r.strings ++ [text] })
  else
    some (⟨r.strings.length, 0, Len⟩, { r with
        strings := r.strings ++ [text]
        AllocBuffer := some r.strings.length
        AllocOffs := Len })

def clear (r : RewriteRope) : RewriteRope := { r with Chunks := r.Chunks.clear }

def insertText (r : RewriteRope) (Offset : Nat) (text : List UInt8) : Option RewriteRope := do
  let (R, r) ← r.MakeRopeString text
  let Chunks ← r.Chunks.insert Offset R
  some { r with Chunks := Chunks }

def assign (r : RewriteRope) (text : List UInt8) : Option RewriteRope :=
  let r := r.clear
  if text = [] then some r else r.insertText 0 text

def insert (r : RewriteRope) (Offset : Nat) (text : List UInt8) : Option RewriteRope :=
  if r.size < Offset then none
  else if text = [] then some r
  else r.insertText Offset text

def erase (r : RewriteRope) (Offset NumBytes : Nat) : Option RewriteRope :=
  if r.size < Offset + NumBytes then none
  else if NumBytes = 0 then some r
  else do
    let Chunks ← r.Chunks.erase Offset NumBytes
    some { r with Chunks := Chunks }

/-- A call of one of the operations. -/
inductive Op where
  | assign (text : List UInt8)
  | clear
  | insert (Offset : Nat) (text : List UInt8)
  | erase (Offset NumBytes : Nat)

def step (r : RewriteRope) : Op → Option RewriteRope
  | .assign text => r.assign text
  | .clear => some r.clear
  | .insert Offset text => r.insert Offset text
  | .erase Offset NumBytes => r.erase Offset NumBytes

/-- A call on a plain string. -/
def Op.apply (s : List UInt8) : Op → List UInt8
  | .assign text => text
  | .clear => []
  | .insert Offset text => s.take Offset ++ (text ++ s.drop Offset)
  | .erase Offset NumBytes => s.take Offset ++ s.drop (Offset + NumBytes)

/-- The arguments are in range, and the length stays an `unsigned`. -/
def Op.InRange (s : List UInt8) : Op → Prop
  | .assign text => text.length < 2 ^ 32
  | .clear => True
  | .insert Offset text => Offset ≤ s.length ∧ s.length + text.length < 2 ^ 32
  | .erase Offset NumBytes => Offset + NumBytes ≤ s.length

/-- The text does not make the offset in the buffer wrap around, and not everything is erased while
the root is an interior node. -/
def Op.Fits (r : RewriteRope) : Op → Prop
  | .assign text => r.AllocOffs + text.length < 2 ^ 32
  | .clear => True
  | .insert _ text => r.AllocOffs + text.length < 2 ^ 32
  | .erase _ NumBytes => r.Chunks.height = 0 ∨ NumBytes < r.size

instance (s : List UInt8) : (op : Op) → Decidable (op.InRange s)
  | .assign text => inferInstanceAs (Decidable (text.length < 2 ^ 32))
  | .clear => isTrue trivial
  | .insert Offset text =>
    inferInstanceAs (Decidable (Offset ≤ s.length ∧ s.length + text.length < 2 ^ 32))
  | .erase Offset NumBytes => inferInstanceAs (Decidable (Offset + NumBytes ≤ s.length))

instance (r : RewriteRope) : (op : Op) → Decidable (op.Fits r)
  | .assign text => inferInstanceAs (Decidable (r.AllocOffs + text.length < 2 ^ 32))
  | .clear => isTrue trivial
  | .insert _ text => inferInstanceAs (Decidable (r.AllocOffs + text.length < 2 ^ 32))
  | .erase _ NumBytes => inferInstanceAs (Decidable (r.Chunks.height = 0 ∨ NumBytes < r.size))

/-- The rope holds a string. -/
structure Represents (r : RewriteRope) (s : List UInt8) : Prop where
  wf : r.Chunks.WF
  rooted : r.Chunks.Rooted
  valid : ∀ p ∈ r.Chunks.pieces, RopePiece.Valid r.strings p
  text : RopePiece.textOf r.strings r.Chunks.pieces = s
  offs : r.AllocOffs ≤ AllocChunkSize
  buffer : ∀ b ∈ r.AllocBuffer, ∃ data, r.strings[b]? = some data ∧ data.length = r.AllocOffs
  noBuffer : r.AllocBuffer = none → r.AllocOffs = AllocChunkSize

theorem new_represents : new.Represents [] := by
  obtain ⟨hwf, hrooted, hpieces⟩ := RopePieceBTree.newLeaf_wf LeafOrder.empty
  refine ⟨hwf, hrooted, ?_, rfl, Nat.le_refl _, fun b hb => absurd hb (by simp [new]), fun _ => rfl⟩
  intro p hp
  exact absurd hp (by rw [show new.Chunks.pieces = [] from hpieces]; exact not_mem_nil)

variable {r : RewriteRope} {s : List UInt8}

theorem Represents.size_eq (h : r.Represents s) : r.size = s.length := by
  show r.Chunks.size = s.length
  rw [h.wf.size_eq.1, ← h.text, RopePiece.length_textOf h.valid]

theorem Represents.bytes_eq (h : r.Represents s) {fuel : Nat} (hfuel : s.length < fuel) :
    r.bytes fuel = some s := by
  obtain ⟨it, hbegin, hreads⟩ := RopePieceBTree.begin_reads h.wf h.rooted h.valid
  rw [h.text] at hreads
  unfold bytes
  rw [hbegin]
  exact RopePieceBTree.readFrom_spec h.wf h.valid hreads hfuel

theorem Represents.grows (h : r.Represents s) {r' : RewriteRope} (hchunks : r'.Chunks = r.Chunks)
    (hgrows : RopePiece.Grows r.strings r'.strings) (hoffs : r'.AllocOffs ≤ AllocChunkSize)
    (hbuffer : ∀ b ∈ r'.AllocBuffer, ∃ data, r'.strings[b]? = some data ∧
      data.length = r'.AllocOffs)
    (hnoBuffer : r'.AllocBuffer = none → r'.AllocOffs = AllocChunkSize) : r'.Represents s where
  wf := by
    rw [hchunks]
    exact h.wf
  rooted := by
    rw [hchunks]
    exact h.rooted
  valid := by
    rw [hchunks]
    exact fun p hp => (h.valid p hp).mono hgrows
  text := by
    rw [hchunks, RopePiece.textOf_mono h.valid hgrows]
    exact h.text
  offs := hoffs
  buffer := hbuffer
  noBuffer := hnoBuffer

theorem MakeRopeString_spec (h : r.Represents s) {text : List UInt8} (hne : text ≠ [])
    (hfits : r.AllocOffs + text.length < 2 ^ 32) :
    ∃ R r', r.MakeRopeString text = some (R, r') ∧ r'.Represents s ∧ r'.Chunks = r.Chunks ∧
      RopePiece.Valid r'.strings R ∧ RopePiece.text r'.strings R = text := by
  have hpos := length_pos_of_ne_nil hne
  have hoffs := h.offs
  have hpush : (r.strings ++ [text])[r.strings.length]? = some ([] ++ text) :=
    getElem?_concat_length ..
  obtain ⟨hvalid, htext⟩ := RopePiece.valid_of_end hne hpush
  rw [length_nil, Nat.zero_add] at hvalid htext
  unfold MakeRopeString
  dsimp only
  rw [Nat.mod_eq_of_lt hfits]
  by_cases hspace : r.AllocOffs + text.length ≤ AllocChunkSize
  · rw [if_pos hspace]
    cases hb : r.AllocBuffer with
    | none =>
      have hfull := h.noBuffer hb
      omega
    | some b =>
      obtain ⟨data, hdata, hlength⟩ := h.buffer b hb
      obtain ⟨hb', -⟩ := List.getElem?_eq_some_iff.mp hdata
      have hnew : (r.strings.set b (data ++ text))[b]? = some (data ++ text) :=
        getElem?_set_self hb'
      obtain ⟨hvalid, htext⟩ := RopePiece.valid_of_end hne hnew
      have htake : data.take r.AllocOffs = data := take_of_length_le (Nat.le_of_eq hlength)
      show ∃ R r', (r.strings[b]?).bind _ = some (R, r') ∧ _
      rw [hdata, bind_some, if_neg (Nat.not_lt.mpr hspace), Nat.add_sub_cancel, htake]
      rw [hlength] at hvalid htext
      refine ⟨_, _, rfl, h.grows rfl (RopePiece.Grows.extend hdata text) hspace ?_ ?_, rfl,
        hvalid, htext⟩
      · intro b' hb'
        rw [mem_def, some.injEq] at hb'
        subst hb'
        exact ⟨_, hnew, by rw [length_append, hlength]⟩
      · exact fun hnone => absurd hnone (some_ne_none b)
  · rw [if_neg hspace]
    have hgrows := RopePiece.Grows.push r.strings text
    by_cases hhuge : AllocChunkSize < text.length
    · rw [if_pos hhuge]
      refine ⟨_, _, rfl, h.grows rfl hgrows hoffs ?_ h.noBuffer, rfl, hvalid, htext⟩
      intro b hb
      obtain ⟨data, hdata, hlength⟩ := h.buffer b hb
      obtain ⟨hlt, -⟩ := List.getElem?_eq_some_iff.mp hdata
      exact ⟨data, (getElem?_append_left hlt).trans hdata, hlength⟩
    · rw [if_neg hhuge]
      refine ⟨_, _, rfl, h.grows rfl hgrows (Nat.le_of_not_lt hhuge) ?_ ?_, rfl, hvalid, htext⟩
      · intro b hb
        rw [mem_def, some.injEq] at hb
        subst hb
        exact ⟨text, hpush, rfl⟩
      · exact fun hnone => absurd hnone (some_ne_none _)

theorem MakeRopeString_eq_none (h : r.Represents s) {text : List UInt8}
    (hlength : text.length < 2 ^ 32) (hwrap : 2 ^ 32 ≤ r.AllocOffs + text.length) :
    r.MakeRopeString text = none := by
  have hoffs := h.offs
  have hmod : (r.AllocOffs + text.length) % 2 ^ 32 ≤ AllocChunkSize := by omega
  have hover : AllocChunkSize < r.AllocOffs + text.length := by
    rw [AllocChunkSize] at hoffs ⊢
    omega
  unfold MakeRopeString
  rw [if_pos hmod]
  cases r.AllocBuffer with
  | none => rfl
  | some b =>
    show (r.strings[b]?).bind _ = none
    cases r.strings[b]? with
    | none => rfl
    | some data => exact if_pos hover

theorem insertText_spec (h : r.Represents s) {Offset : Nat} {text : List UInt8} (hne : text ≠ [])
    (hle : Offset ≤ s.length) (hfits : r.AllocOffs + text.length < 2 ^ 32) :
    ∃ r', r.insertText Offset text = some r' ∧
      r'.Represents (s.take Offset ++ (text ++ s.drop Offset)) := by
  obtain ⟨R, r₁, hmake, h₁, -, hvalid, htext⟩ := MakeRopeString_spec h hne hfits
  have hsize : Offset ≤ r₁.Chunks.size := hle.trans_eq h₁.size_eq.symm
  obtain ⟨t', hinsert, hwf, hrooted, hpieces⟩ :=
    RopePieceBTree.insert_spec h₁.wf h₁.rooted hsize hvalid.pos
  obtain ⟨htake, hdrop, hvalidTake, hvalidDrop⟩ := RopePiece.textOf_units h₁.valid Offset
  refine ⟨{ r₁ with Chunks := t' }, ?_, hwf, hrooted, ?_, ?_, h₁.offs, h₁.buffer, h₁.noBuffer⟩
  · unfold insertText
    rw [hmake]
    show (r₁.Chunks.insert Offset R).bind _ = _
    rw [hinsert]
    rfl
  · rw [hpieces]
    intro p hp
    rcases mem_append.mp hp with hp | hp
    · exact hvalidTake p hp
    · rcases mem_cons.mp hp with heq | hp
      · rw [heq]
        exact hvalid
      · exact hvalidDrop p hp
  · rw [hpieces, RopePiece.textOf_append, htake, h₁.text]
    show _ ++ (RopePiece.text r₁.strings R ++ RopePiece.textOf r₁.strings _) = _
    rw [htext, hdrop, h₁.text]

theorem clear_represents (h : r.Represents s) : r.clear.Represents [] := by
  obtain ⟨hwf, hrooted, hpieces⟩ := RopePieceBTree.clear_wf h.wf
  refine ⟨hwf, hrooted, ?_, ?_, h.offs, h.buffer, h.noBuffer⟩
  · intro p hp
    rw [show r.clear.Chunks.pieces = [] from hpieces] at hp
    exact absurd hp not_mem_nil
  · rw [show r.clear.Chunks.pieces = [] from hpieces]
    rfl

theorem erase_chunks (h : r.Represents s) {Offset NumBytes : Nat} (hbytes : 0 < NumBytes)
    (hle : Offset + NumBytes ≤ s.length) :
    ∃ t', r.Chunks.erase Offset NumBytes = some t' ∧ t'.WF ∧
      (∀ p ∈ t'.pieces, RopePiece.Valid r.strings p) ∧
      RopePiece.textOf r.strings t'.pieces = s.take Offset ++ s.drop (Offset + NumBytes) := by
  have hsize : Offset + NumBytes ≤ r.Chunks.size := hle.trans_eq h.size_eq.symm
  obtain ⟨t', herase, hwf, hpieces⟩ := RopePieceBTree.erase_spec h.wf h.rooted hbytes hsize
  obtain ⟨htake, hdrop, hvalidTake, hvalidDrop⟩ := RopePiece.textOf_units h.valid Offset
  obtain ⟨-, hdrop', -, hvalidDrop'⟩ := RopePiece.textOf_units hvalidDrop NumBytes
  refine ⟨t', herase, hwf, ?_, ?_⟩
  · rw [hpieces]
    intro p hp
    rcases mem_append.mp hp with hp | hp
    · exact hvalidTake p hp
    · exact hvalidDrop' p hp
  · rw [hpieces, RopePiece.textOf_append, htake, hdrop', hdrop, h.text, drop_drop]

theorem erase_spec (h : r.Represents s) {Offset NumBytes : Nat} (hbytes : 0 < NumBytes)
    (hle : Offset + NumBytes ≤ s.length) (hfits : r.Chunks.height = 0 ∨ NumBytes < r.size) :
    ∃ r', r.erase Offset NumBytes = some r' ∧
      r'.Represents (s.take Offset ++ s.drop (Offset + NumBytes)) := by
  obtain ⟨t', herase, hwf, hvalid, htext⟩ := erase_chunks h hbytes hle
  have hsize := h.size_eq
  have hlength := RopePiece.length_textOf hvalid
  rw [htext, ← hwf.size_eq.1, length_append, length_take, length_drop] at hlength
  refine ⟨{ r with Chunks := t' }, ?_, hwf, ?_, hvalid, htext, h.offs, h.buffer, h.noBuffer⟩
  · unfold erase
    rw [if_neg (by omega), if_neg (by omega), herase]
    rfl
  · by_cases hpart : NumBytes < s.length
    · exact .inr (show 0 < t'.size by omega)
    · have hzero : Offset = 0 := by omega
      subst hzero
      have hheight : t'.height = r.Chunks.height := RopePieceBTree.erase_zero_height herase
      exact .inl (hheight.trans (hfits.resolve_right (by omega)))

theorem step_spec {op : Op} (h : r.Represents s) (hrange : op.InRange s) (hfits : op.Fits r) :
    ∃ r', r.step op = some r' ∧ r'.Represents (op.apply s) := by
  cases op with
  | assign text =>
    show ∃ r', (if text = [] then some r.clear else r.clear.insertText 0 text) = some r' ∧ _
    have hclear := clear_represents h
    by_cases hempty : text = []
    · subst hempty
      exact ⟨r.clear, rfl, hclear⟩
    · rw [if_neg hempty]
      obtain ⟨r', hinsert, hrep⟩ := insertText_spec hclear hempty (Nat.zero_le _) hfits
      rw [take_nil, drop_nil, nil_append, append_nil] at hrep
      exact ⟨r', hinsert, hrep⟩
  | clear => exact ⟨r.clear, rfl, clear_represents h⟩
  | insert Offset text =>
    obtain ⟨hle, -⟩ := hrange
    have hsize := h.size_eq
    show ∃ r', (if r.size < Offset then none else if text = [] then some r
      else r.insertText Offset text) = some r' ∧ r'.Represents (s.take Offset ++ (text ++ _))
    rw [if_neg (by omega)]
    by_cases hempty : text = []
    · rw [if_pos hempty, hempty, nil_append, take_append_drop]
      exact ⟨r, rfl, h⟩
    · rw [if_neg hempty]
      exact insertText_spec h hempty hle hfits
  | erase Offset NumBytes =>
    have hle : Offset + NumBytes ≤ s.length := hrange
    have hsize := h.size_eq
    by_cases hzero : NumBytes = 0
    · subst hzero
      show ∃ r', (if r.size < Offset + 0 then none else if 0 = 0 then some r else _) = some r' ∧
        r'.Represents (s.take Offset ++ s.drop (Offset + 0))
      rw [if_neg (by omega), if_pos rfl, Nat.add_zero, take_append_drop]
      exact ⟨r, rfl, h⟩
    · exact erase_spec h (Nat.pos_of_ne_zero hzero) hle hfits

/-- The size and the bytes of a rope are those of a string. -/
def Correct (r : RewriteRope) (s : List UInt8) : Prop :=
  r.size = s.length ∧ ∀ fuel, s.length < fuel → r.bytes fuel = some s

theorem Represents.correct (h : r.Represents s) : r.Correct s :=
  ⟨h.size_eq, fun _ hfuel => h.bytes_eq hfuel⟩

theorem step_not_fits {op : Op} (h : r.Represents s) (hrange : op.InRange s)
    (hfits : ¬ op.Fits r) : ∀ r' ∈ r.step op, ¬ r'.Correct (op.apply s) := by
  intro r' hr'
  have hoffs := h.offs
  rw [AllocChunkSize] at hoffs
  cases op with
  | assign text =>
    have hwrap : 2 ^ 32 ≤ r.AllocOffs + text.length := Nat.le_of_not_lt hfits
    have hlength : text.length < 2 ^ 32 := hrange
    have hne : text ≠ [] := ne_nil_of_length_pos (by omega)
    have hnone : r.step (.assign text) = none := by
      refine (if_neg hne).trans ?_
      exact congrArg (Option.bind · _) (MakeRopeString_eq_none (clear_represents h) hlength hwrap)
    rw [hnone] at hr'
    exact absurd hr' (by simp)
  | clear => exact absurd trivial hfits
  | insert Offset text =>
    obtain ⟨hle, hsum⟩ := hrange
    have hwrap : 2 ^ 32 ≤ r.AllocOffs + text.length := Nat.le_of_not_lt hfits
    have hlength : text.length < 2 ^ 32 := by omega
    have hne : text ≠ [] := ne_nil_of_length_pos (by omega)
    have hin : ¬ r.size < Offset := by
      rw [h.size_eq]
      omega
    have hnone : r.step (.insert Offset text) = none := by
      refine (if_neg hin).trans ((if_neg hne).trans ?_)
      exact congrArg (Option.bind · _) (MakeRopeString_eq_none h hlength hwrap)
    rw [hnone] at hr'
    exact absurd hr' (by simp)
  | erase Offset NumBytes =>
    obtain ⟨hheight, hall⟩ := not_or.mp hfits
    have hle : Offset + NumBytes ≤ s.length := hrange
    have hsize := h.size_eq
    have hpos : 0 < r.size := h.rooted.resolve_left hheight
    have hzero : Offset = 0 := by omega
    subst hzero
    obtain ⟨t', herase, hwf, hvalid, htext⟩ := erase_chunks h (show 0 < NumBytes by omega) hle
    have hstep : r.step (.erase 0 NumBytes) = some { r with Chunks := t' } := by
      refine (if_neg (by omega)).trans ((if_neg (by omega)).trans ?_)
      exact congrArg (Option.bind · _) herase
    rw [hstep, mem_def, some.injEq] at hr'
    subst hr'
    rintro ⟨hsize', hbytes⟩
    have hempty : t'.size = 0 := by
      refine Eq.trans hsize' ?_
      show (s.take 0 ++ s.drop (0 + NumBytes)).length = 0
      rw [length_append, length_take, length_drop]
      omega
    have hnone := RopePieceBTree.begin_eq_none hwf
      (by rwa [RopePieceBTree.erase_zero_height herase]) hempty
    have hsome := hbytes _ (Nat.lt_succ_self _)
    have hbytesNone (fuel : Nat) : bytes { r with Chunks := t' } fuel = none :=
      congrArg (Option.bind · _) hnone
    rw [hbytesNone] at hsome
    exact absurd hsome.symm (some_ne_none _)

/-- After each of the operations the rope is the string, and each of them stays in the used part of
the nodes and of the buffer. -/
def RunCorrect (r : RewriteRope) (s : List UInt8) : List Op → Prop
  | [] => r.Correct s
  | op :: ops => r.Correct s ∧ ∃ r', r.step op = some r' ∧ RunCorrect r' (op.apply s) ops

/-- The arguments of each operation are in range. -/
def RunInRange (s : List UInt8) : List Op → Prop
  | [] => True
  | op :: ops => op.InRange s ∧ RunInRange (op.apply s) ops

/-- Each operation fits the rope it is called on. -/
def RunFits (r : RewriteRope) : List Op → Prop
  | [] => True
  | op :: ops => op.Fits r ∧ ∀ r' ∈ r.step op, RunFits r' ops

instance RunInRange.decidable (s : List UInt8) : (ops : List Op) → Decidable (RunInRange s ops)
  | [] => isTrue trivial
  | op :: ops =>
    haveI := RunInRange.decidable (op.apply s) ops
    inferInstanceAs (Decidable (_ ∧ _))

instance RunFits.decidable (r : RewriteRope) : (ops : List Op) → Decidable (r.RunFits ops)
  | [] => isTrue trivial
  | _ :: ops =>
    haveI : DecidablePred fun r' : RewriteRope => r'.RunFits ops :=
      fun r' => RunFits.decidable r' ops
    inferInstanceAs (Decidable (_ ∧ _))

theorem RunCorrect.correct {ops : List Op} (h : r.RunCorrect s ops) : r.Correct s := by
  cases ops with
  | nil => exact h
  | cons op ops => exact h.1

theorem runCorrect_iff {ops : List Op} (h : r.Represents s) (hrange : RunInRange s ops) :
    r.RunCorrect s ops ↔ r.RunFits ops := by
  induction ops generalizing r s with
  | nil => exact ⟨fun _ => trivial, fun _ => h.correct⟩
  | cons op ops ih =>
    obtain ⟨hop, hops⟩ := hrange
    constructor
    · rintro ⟨-, r', hstep, hrun⟩
      have hfits : op.Fits r := by
        by_contra hfits
        exact step_not_fits h hop hfits r' hstep hrun.correct
      obtain ⟨r₁, hstep₁, h₁⟩ := step_spec h hop hfits
      refine ⟨hfits, fun r₂ hr₂ => ?_⟩
      obtain rfl := some.inj (hstep.symm.trans hr₂)
      obtain rfl := some.inj (hstep.symm.trans hstep₁)
      exact (ih h₁ hops).mp hrun
    · rintro ⟨hfits, hrun⟩
      obtain ⟨r', hstep, h'⟩ := step_spec h hop hfits
      exact ⟨h.correct, r', hstep, (ih h' hops).mpr (hrun r' hstep)⟩

end RewriteRope

end Zapcc.Rewrite
